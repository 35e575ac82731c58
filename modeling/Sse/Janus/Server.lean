import Sse.Diana.Taking
import Sse.Janus.Client

/-!
# The server of Janus

`JanusServer` holds the databases of the two Diana servers and a cache: for every keyword
token, the inds and tags of the last search.  A search takes the key shares of the epoch,
drops from the cache what they puncture, and adds what the punctured key decrypts.  It
exists twice: `search` takes the ciphertexts out of the database, `search_parallel` leaves
them there and puts the new entries first.
-/

namespace Sse.Janus

/-- `cached_result_type`. -/
abbrev CachedResult (B : Type) := UInt64 × B

/-- `JanusServer`. -/
structure Server (B CT SK : Type) where
  insertion : B → Option CT
  deletion : B → Option SK
  cached_results_edb : B → Option (List (CachedResult B))

/-- The two searches; a scheduler for each search on several threads. -/
inductive Path where
  | search (insPick delPick : Nat → Nat)
  | searchParallel (threads_count : UInt8) (h : 1 < threads_count) (pick : Nat → Nat)

structure State (B CT SK : Type) where
  client : Client
  server : Server B CT SK

def State.init {B CT SK : Type} : State B CT SK := ⟨.init, ⟨fun _ => none, fun _ => none, fun _ => none⟩⟩

/-- A call of the interface. -/
inductive Op (R : Type) where
  | insertKeyword (key : Str) (ind : UInt64) (s : R)
  | deleteKeyword (key : Str) (ind : UInt64)
  | searchKeyword (key : Str) (path : Path)

section

variable {B CT SK R : Type} [XorOp CT] [XorOp SK] [DecidableEq B] (P : Prims B CT SK R)

omit [XorOp CT] [XorOp SK] [DecidableEq B] in
/-- The ciphertexts that decrypt, with their tags. -/
def decryptAll (shares : List SK) (insertions : List CT) : List (CachedResult B) :=
  insertions.filterMap fun ct => (P.decrypt shares ct).map fun r => (r, P.ctTag ct)

omit [XorOp CT] [XorOp SK] in
/-- The cache without the newly removed tags. -/
def filterCache (server : Server B CT SK) (keyword_token : B) (key_shares : List SK) : List (CachedResult B) :=
  let removed_tags := key_shares.map P.skTag
  ((server.cached_results_edb keyword_token).getD []).filter fun it => it.2 ∉ removed_tags

variable (usehdd : Bool)

/-- `JanusServer::search`. -/
def Server.search (server : Server B CT SK) (req : SearchRequest B SK) (insPick delPick : Nat → Nat) :
    Option (Server B CT SK × List UInt64) := do
  let (insertion, insertions) ←
    Diana.searchTaking P.ins usehdd server.insertion req.insertion_search_request 8 insPick
  let (deletion, key_shares) ← Diana.searchTaking P.del usehdd server.deletion req.deletion_search_request 8 delPick
  let cached := filterCache P server req.keyword_token key_shares
  let new := decryptAll P (req.first_key_share :: key_shares) insertions
  some (⟨insertion, deletion, Function.update server.cached_results_edb req.keyword_token (some (cached ++ new))⟩,
    cached.map Prod.fst ++ new.map Prod.fst)

/-- `JanusServer::search_parallel`; `none` also where the assertion fails. -/
def Server.searchParallel (server : Server B CT SK) (req : SearchRequest B SK) (threads_count : UInt8)
    (pick : Nat → Nat) : Option (Server B CT SK × List UInt64) :=
  if threads_count ≤ 1 then none
  else do
    let (deletion, key_shares) ←
      Diana.searchTaking P.del usehdd server.deletion req.deletion_search_request threads_count pick
    let filtered_cache := filterCache P server req.keyword_token key_shares
    let (insertion, insertions) := Diana.search P.ins false server.insertion req.insertion_search_request
    let new_cache := decryptAll P (req.first_key_share :: key_shares) insertions
    -- the calls of `post_callback`: the job of the cache is number `threads_count - 1`
    let posted := filtered_cache.map (fun it => (it.1, threads_count.toNat - 1)) ++ new_cache.map fun it => (it.1, 1)
    let results := (List.range threads_count.toNat).flatMap fun i => (posted.filter (·.2 = i)).map Prod.fst
    some (⟨insertion, deletion,
      Function.update server.cached_results_edb req.keyword_token (some (new_cache ++ filtered_cache))⟩, results)

/-- The search of a path. -/
def Server.answer (server : Server B CT SK) (req : SearchRequest B SK) : Path → Option (Server B CT SK × List UInt64)
  | .search insPick delPick => server.search P usehdd req insPick delPick
  | .searchParallel threads_count _ pick => server.searchParallel P usehdd req threads_count pick

/-- `JanusInterface`. -/
def step (st : State B CT SK) : Op R → Option (State B CT SK × List UInt64)
  | .insertKeyword key ind s =>
    (insertionRequest P st.client key ind s).map fun (client, add_req) =>
      (⟨client, { st.server with insertion := serverUpdate usehdd st.server.insertion add_req }⟩, [])
  | .deleteKeyword key ind =>
    (deletionRequest P st.client key ind).map fun (client, del_req) =>
      (⟨client, { st.server with deletion := serverUpdate usehdd st.server.deletion del_req }⟩, [])
  | .searchKeyword key path => do
    let (client, s_req) ← searchRequest P st.client key
    let (server, res) ← st.server.answer P usehdd s_req path
    some (⟨client, server⟩, res)

end

end Sse.Janus
