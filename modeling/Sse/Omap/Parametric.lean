import Sse.Lib.Simulation
import Sse.Omap.OmapRuns

/-!
# The tree over two stores

`AVLTree` and `OMAP` reach their ORAM through the calls of `TreeStore` only.  So where the
calls of two stores are related, the calls of `OMAP` over them are (`TreeSim.call`).
-/

namespace Sse.Omap

open Wp

section

variable {n : Nat} {σ τ : Type}

/-- The calls of two stores are related. -/
structure NodeSim (M : Sim σ τ Err) (S : NodeStore n σ) (T : NodeStore n τ) : Prop where
  readNode : ∀ k leaf, M.Rel (S.readNode k leaf) (T.readNode k leaf)
  readCached : ∀ k, M.Rel (S.readCached k) (T.readCached k)
  writeNode : ∀ k node, M.Rel (S.writeNode k node) (T.writeNode k node)
  deref : ∀ k, M.Rel (S.deref k) (T.deref k)
  assign : ∀ k f, M.Rel (S.assign k f) (T.assign k f)
  randomPath : M.Rel S.randomPath T.randomPath

/-- And so are the beginnings and the ends of their operations. -/
structure TreeSim (M : Sim σ τ Err) (S : TreeStore n σ) (T : TreeStore n τ) : Prop extends
    NodeSim M S.toNodeStore T.toNodeStore where
  start : ∀ batchWrite, M.Rel (S.start batchWrite) (T.start batchWrite)
  finilize : ∀ find rootKey rootPos, M.Rel (S.finilize find rootKey rootPos) (T.finilize find rootKey rootPos)

variable {M : Sim σ τ Err} {S : NodeStore n σ} {T : NodeStore n τ}

/-! ## AVLTree -/

theorem NodeSim.height (h : NodeSim M S T) (key : Bid n) (leaf : Nat) : M.Rel (height S key leaf) (height T key leaf) := by
  unfold Sse.Omap.height
  refine M.ite (M.pure 0) (M.bind (h.readNode key leaf) fun p => ?_)
  cases p with
  | none => exact M.throw _
  | some p => exact M.bind (h.deref p) fun node => M.pure _

theorem NodeSim.newNode (h : NodeSim M S T) (key : Bid n) (value : Str) :
    M.Rel (newNode S key value) (newNode T key value) :=
  M.bind h.randomPath fun _ => M.pure _

theorem NodeSim.updateHeight (h : NodeSim M S T) (y : Bid n) : M.Rel (updateHeight S y) (updateHeight T y) := by
  refine M.bind (h.deref y) fun node => ?_
  refine M.bind (h.height node.leftID node.leftPos) fun a => ?_
  exact M.bind (h.height node.rightID node.rightPos) fun b => h.assign y _

theorem NodeSim.middle (h : NodeSim M S T) (id : Bid n) : M.Rel (middle S id) (middle T id) := by
  unfold Sse.Omap.middle
  exact M.ite (h.newNode Bid.zero []) (M.bind (h.readCached id) fun p => h.deref p)

theorem NodeSim.rotate (h : NodeSim M S T) (d : Side) (y : Bid n) : M.Rel (rotate S d y) (rotate T d y) := by
  refine M.bind (h.deref y) fun ynode => ?_
  refine M.bind (h.readCached _) fun x => ?_
  refine M.bind (h.deref x) fun xnode => ?_
  refine M.bind (h.middle _) fun T2 => ?_
  refine M.bind (h.assign x _) fun _ => ?_
  refine M.bind (h.assign y _) fun _ => ?_
  refine M.bind (h.updateHeight y) fun _ => ?_
  refine M.bind (h.deref y) fun node => ?_
  refine M.bind (h.writeNode _ _) fun _ => ?_
  refine M.bind (h.updateHeight x) fun _ => ?_
  refine M.bind (h.deref x) fun node => ?_
  exact M.bind (h.writeNode _ _) fun _ => M.pure x

theorem NodeSim.getBalance (h : NodeSim M S T) (N : Bid n) : M.Rel (getBalance S N) (getBalance T N) := by
  refine M.bind (h.deref N) fun node => ?_
  refine M.bind (h.height node.leftID node.leftPos) fun a => ?_
  exact M.bind (h.height node.rightID node.rightPos) fun b => M.pure _

theorem NodeSim.childTest (h : NodeSim M S T) (cond : Bool) (id : Bid n) (test : Bid n → Bool) :
    M.Rel (childTest S cond id test) (childTest T cond id test) := by
  unfold Sse.Omap.childTest
  refine M.ite ?_ (M.pure false)
  exact M.bind (h.readCached id) fun p => M.bind (h.deref p) fun node => M.pure _

theorem NodeSim.rotated (h : NodeSim M S T) (d : Side) (y : Bid n) : M.Rel (rotated S d y) (rotated T d y) :=
  M.bind (h.rotate d y) fun res => M.bind (h.deref res) fun _ => M.pure _

theorem NodeSim.rotatedTwice (h : NodeSim M S T) (d : Side) (node : Bid n) (nd : Node n) :
    M.Rel (rotatedTwice S d node nd) (rotatedTwice T d node nd) := by
  refine M.bind (h.readCached _) fun child => ?_
  refine M.bind (h.rotated d.other child) fun r => ?_
  refine M.bind (h.assign node _) fun _ => ?_
  refine M.bind (h.deref node) fun nd' => ?_
  exact M.bind (h.writeNode _ _) fun _ => h.rotated d node

theorem NodeSim.rebalance (h : NodeSim M S T) (node : Bid n) (pos : Nat) (key : Bid n) :
    M.Rel (rebalance S node pos key) (rebalance T node pos key) := by
  refine M.bind (h.updateHeight node) fun _ => ?_
  refine M.bind (h.getBalance node) fun balance => ?_
  refine M.bind (h.deref node) fun nd => ?_
  -- the four cases of the balance, and none of them
  refine M.bind (h.childTest _ _ _) fun c => M.ite (h.rotated .left node) ?_
  refine M.bind (h.childTest _ _ _) fun c => M.ite (h.rotated .right node) ?_
  refine M.bind (h.childTest _ _ _) fun c => M.ite (h.rotatedTwice .left node nd) ?_
  refine M.bind (h.childTest _ _ _) fun c => M.ite (h.rotatedTwice .right node nd) ?_
  refine M.bind (h.deref node) fun nd' => ?_
  exact M.bind (h.writeNode _ _) fun _ => M.pure _

/-- `insert`, by induction on the fuel. -/
theorem NodeSim.insert (h : NodeSim M S T) (fuel : Nat) (rootKey : Bid n) (pos : Nat) (key : Bid n) (value : Str) :
    M.Rel (insert S fuel rootKey pos key value) (insert T fuel rootKey pos key value) := by
  induction fuel generalizing rootKey pos with
  | zero => exact M.throw _
  | succ fuel ih =>
    unfold Sse.Omap.insert
    refine M.ite (M.bind (h.newNode key value) fun nnode => M.bind (h.writeNode _ _) fun pos => M.pure _) ?_
    refine M.bind (h.readNode rootKey pos) fun p => ?_
    cases p with
    | none => exact M.throw _
    | some node =>
      refine M.bind (h.deref node) fun nd => M.ite ?_ (M.ite ?_ ?_)
      · refine M.bind (ih _ _) fun q => ?_
        exact M.bind (h.assign node _) fun _ => h.rebalance node pos key
      · refine M.bind (ih _ _) fun q => ?_
        exact M.bind (h.assign node _) fun _ => h.rebalance node pos key
      · refine M.bind (h.assign node _) fun _ => ?_
        refine M.bind (h.deref node) fun nd' => ?_
        exact M.bind (h.writeNode _ _) fun _ => M.pure _

theorem NodeSim.derefOpt (h : NodeSim M S T) (p : Option (Bid n)) : M.Rel (derefOpt S p) (derefOpt T p) := by
  cases p with
  | none => exact M.pure none
  | some p => exact M.bind (h.deref p) fun node => M.pure _

theorem NodeSim.search (h : NodeSim M S T) (fuel : Nat) (head : Option (Node n)) (key : Bid n) :
    M.Rel (search S fuel head key) (search T fuel head key) := by
  induction fuel generalizing head with
  | zero => exact M.throw _
  | succ fuel ih =>
    cases head with
    | none => exact M.pure none
    | some head =>
      unfold Sse.Omap.search
      refine M.ite (M.pure _) (M.bind (h.readNode head.key head.pos) fun p => ?_)
      cases p with
      | none => exact M.throw _
      | some p =>
        refine M.bind (h.deref p) fun head => M.ite ?_ (M.ite ?_ (M.pure _))
        · refine M.bind (h.readNode _ _) fun c => ?_
          exact M.bind (h.derefOpt c) fun child => ih child
        · refine M.bind (h.readNode _ _) fun c => ?_
          exact M.bind (h.derefOpt c) fun child => ih child

theorem NodeSim.batchSearch (h : NodeSim M S T) (fuel : Nat) (head : Option (Node n)) (keys results : List (Bid n)) :
    M.Rel (batchSearch S fuel head keys results) (batchSearch T fuel head keys results) := by
  induction fuel generalizing head keys results with
  | zero => exact M.throw _
  | succ fuel ih =>
    cases head with
    | none => exact M.pure results
    | some head =>
      unfold Sse.Omap.batchSearch
      refine M.ite (M.pure _) (M.bind (h.readNode head.key head.pos) fun p => ?_)
      cases p with
      | none => exact M.throw _
      | some p =>
        have hside : ∀ (id : Bid n) (leaf : Nat) (keys results : List (Bid n)),
            M.Rel (do let child ← Sse.Omap.derefOpt S (← S.readNode id leaf); Sse.Omap.batchSearch S fuel child keys results)
              (do let child ← Sse.Omap.derefOpt T (← T.readNode id leaf); Sse.Omap.batchSearch T fuel child keys results) := by
          intro id leaf keys results
          refine M.bind (h.readNode id leaf) fun c => ?_
          exact M.bind (h.derefOpt c) fun child => ih child keys results
        refine M.bind (h.deref p) fun head => ?_
        -- the left side first; what follows it is the same in both branches
        refine M.ite (M.bind (M.pure _) fun results => M.ite (M.pure _) (hside _ _ _ _)) ?_
        refine M.bind (h.readNode _ _) fun c => M.bind (h.derefOpt c) fun child => ?_
        exact M.bind (ih _ _ _) fun results => M.ite (M.pure _) (hside _ _ _ _)

/-! ## OMAP -/

variable {S : TreeStore n σ} {T : TreeStore n τ} (fuel : Nat) (o : OMap n)

theorem TreeSim.insertNode (h : TreeSim M S T) (q : Bid n × Nat) (key : Bid n) (value : Str) :
    M.Rel (OMap.insertNode S fuel q key value) (OMap.insertNode T fuel q key value) :=
  h.toNodeSim.insert fuel _ q.2 key value

/-- **One call on the map** over both stores. -/
theorem TreeSim.call (h : TreeSim M S T) (c : OmapCall n) : M.Rel (o.call S fuel c) (o.call T fuel c) := by
  cases c with
  | insert key value =>
    refine M.bind ?_ fun o => M.pure _
    refine M.bind (h.start false) fun _ => ?_
    refine M.bind (h.insertNode fuel _ key value) fun q => ?_
    exact M.bind (h.finilize _ _ _) fun rootPos => M.pure _
  | find key =>
    refine M.bind ?_ fun r => M.pure _
    unfold OMap.find
    refine M.ite (M.pure _) (M.bind (h.start false) fun _ => ?_)
    refine M.bind (h.toNodeSim.search fuel _ key) fun resNode => ?_
    exact M.bind (h.finilize _ _ _) fun rootPos => M.pure _
  | batchSearch keys =>
    refine M.bind (h.start false) fun _ => ?_
    refine M.bind (h.toNodeSim.batchSearch fuel _ keys []) fun resNodes => ?_
    refine M.bind (M.mapM (fun node => M.bind (h.deref node) fun nd => M.pure _) resNodes) fun result => ?_
    exact M.bind (h.finilize _ _ _) fun rootPos => M.pure _
  | batchInsert pairs =>
    refine M.bind ?_ fun o => M.pure _
    refine M.bind (h.start true) fun _ => ?_
    refine M.bind (M.foldlM (fun q (pair : Bid n × Str) => h.insertNode fuel q pair.1 pair.2) _ _) fun q => ?_
    exact M.bind (h.finilize _ _ _) fun rootPos => M.pure _

end

end Sse.Omap
