import Ticoin.Serialize
import Ticoin.Lib.ListIndex
import Ticoin.Lib.Machine

/-!
# main.cpp : block-download bookkeeping

Each peer has a list of the blocks to download from it and a list of the blocks in flight,
with a counter beside each. Two maps find a block by its hash : they hold the peer and an
iterator into its list. A block moves from one list to the other when it is requested, it
leaves them when it arrives, and all blocks of a peer leave when the peer does.

The lists are lists of cells and the maps are their index (`ListIndex.Indexed`). Following an
iterator that is dead, the state of a peer that left and the front of an empty list are
undefined behaviour, here `none`. What the calls keep is `Bookkeeping` ; with it no call on a
peer that is there fails (`NodeCall.exec_spec`), and the loop which requests blocks ends
(`Bookkeeping.getDataBlocks`). It says that the maps and lists tell the same (`Consistent`),
which so holds after all calls (`consistent_of_runCalls`).
-/

namespace Ticoin

open Codec ListIndex

/-! ## Node states -/

abbrev NodeId := ℤ

structure QueuedBlock where
  hash : UInt256
  /-- Time of "getdata" request in microseconds. -/
  nTime : ℤ
  /-- Number of blocks in flight at the time of request. -/
  nQueuedBefore : ℤ
  deriving DecidableEq, Repr

/-- Validation-specific state about a node. -/
structure CNodeState where
  nMisbehavior : ℤ := 0
  fShouldBan : Bool := false
  name : Bytes := []
  vBlocksInFlight : Cells QueuedBlock := []
  nBlocksInFlight : ℤ := 0
  vBlocksToDownload : Cells UInt256 := []
  nBlocksToDownload : ℤ := 0
  nLastBlockReceive : ℤ := 0
  deriving DecidableEq, Repr

abbrev MapNodeState := Std.ExtTreeMap NodeId CNodeState

/-- A block hash finds a node and an iterator into a list of the node. -/
abbrev MapBlocks := Std.ExtTreeMap UInt256 (NodeId × ℕ)

structure NodeStates where
  mapNodeState : MapNodeState := ∅
  mapBlocksToDownload : MapBlocks := ∅
  mapBlocksInFlight : MapBlocks := ∅
  /-- the next iterator that an insertion gives -/
  nextIterator : ℕ := 0

namespace NodeStates

def initializeNode (nodeid : NodeId) (addrName : Bytes) (s : NodeStates) : NodeStates :=
  let state := (s.mapNodeState[nodeid]?).getD {}
  { s with mapNodeState := s.mapNodeState.insert nodeid { state with name := addrName } }

def finalizeNode (nodeid : NodeId) (s : NodeStates) : Option NodeStates := do
  let state ← s.mapNodeState[nodeid]?
  some { s with
    mapBlocksInFlight := state.vBlocksInFlight.foldl (fun m entry => m.erase entry.2.hash)
      s.mapBlocksInFlight
    mapBlocksToDownload := state.vBlocksToDownload.foldl (fun m hash => m.erase hash.2)
      s.mapBlocksToDownload
    mapNodeState := s.mapNodeState.erase nodeid }

/-- The first half of `MarkBlockAsReceived`. -/
def eraseToDownload (hash : UInt256) (s : NodeStates) : Option NodeStates :=
  match s.mapBlocksToDownload[hash]? with
  | none => some s
  | some (id, it) => do
    let state ← s.mapNodeState[id]?
    let vBlocksToDownload ← state.vBlocksToDownload.erase it
    some { s with
      mapNodeState := s.mapNodeState.insert id { state with
        vBlocksToDownload := vBlocksToDownload
        nBlocksToDownload := state.nBlocksToDownload - 1 }
      mapBlocksToDownload := s.mapBlocksToDownload.erase hash }

/-- The second half of `MarkBlockAsReceived`. -/
def eraseInFlight (nTime : ℤ) (hash : UInt256) (nodeFrom : NodeId) (s : NodeStates) :
    Option NodeStates :=
  match s.mapBlocksInFlight[hash]? with
  | none => some s
  | some (id, it) => do
    let state ← s.mapNodeState[id]?
    let vBlocksInFlight ← state.vBlocksInFlight.erase it
    some { s with
      mapNodeState := s.mapNodeState.insert id { state with
        vBlocksInFlight := vBlocksInFlight
        nBlocksInFlight := state.nBlocksInFlight - 1
        nLastBlockReceive := if id = nodeFrom then nTime else state.nLastBlockReceive }
      mapBlocksInFlight := s.mapBlocksInFlight.erase hash }

/-- `MarkBlockAsReceived`, at some time. -/
def markBlockAsReceived (nTime : ℤ) (hash : UInt256) (nodeFrom : NodeId) (s : NodeStates) :
    Option NodeStates :=
  (s.eraseToDownload hash).bind (eraseInFlight nTime hash nodeFrom)

/-- `Misbehaving` with the value of `-banscore`. -/
def misbehaving (banscore howmuch : ℤ) (state : CNodeState) : CNodeState :=
  if howmuch = 0 then state
  else
    { state with
      nMisbehavior := state.nMisbehavior + howmuch
      fShouldBan := state.fShouldBan || decide (banscore ≤ state.nMisbehavior + howmuch) }

def addBlockToQueue (banscore : ℤ) (nodeid : NodeId) (hash : UInt256) (s : NodeStates) :
    Bool × NodeStates :=
  if s.mapBlocksToDownload.contains hash || s.mapBlocksInFlight.contains hash then (false, s)
  else
    match s.mapNodeState[nodeid]? with
    | none => (false, s)
    | some state =>
      let queued := { state with
        vBlocksToDownload := state.vBlocksToDownload ++ [(s.nextIterator, hash)]
        nBlocksToDownload := state.nBlocksToDownload + 1 }
      (true,
        { s with
          mapNodeState := s.mapNodeState.insert nodeid
            (if queued.nBlocksToDownload > 5000 then misbehaving banscore 10 queued else queued)
          mapBlocksToDownload := s.mapBlocksToDownload.insert hash (nodeid, s.nextIterator)
          nextIterator := s.nextIterator + 1 })

/-- What `MarkBlockAsInFlight` does once the block is not listed. -/
def pushInFlight (nTime : ℤ) (nodeid : NodeId) (hash : UInt256) (s : NodeStates) :
    Option NodeStates := do
  let state ← s.mapNodeState[nodeid]?
  let newentry : QueuedBlock := ⟨hash, nTime, state.nBlocksInFlight⟩
  some { s with
    mapNodeState := s.mapNodeState.insert nodeid { state with
      nLastBlockReceive := if state.nBlocksInFlight = 0 then nTime else state.nLastBlockReceive
      vBlocksInFlight := state.vBlocksInFlight ++ [(s.nextIterator, newentry)]
      nBlocksInFlight := state.nBlocksInFlight + 1 }
    mapBlocksInFlight := s.mapBlocksInFlight.insert hash (nodeid, s.nextIterator)
    nextIterator := s.nextIterator + 1 }

/-- `MarkBlockAsInFlight`, which asserts that the node is there, at the times of its two
looks at the clock. -/
def markBlockAsInFlight (nTime : ℤ × ℤ) (nodeid : NodeId) (hash : UInt256) (s : NodeStates) :
    Option NodeStates :=
  if s.mapNodeState.contains nodeid then
    (s.markBlockAsReceived nTime.1 hash (-1)).bind (pushInFlight nTime.2 nodeid hash)
  else none

/-! ## The getdata loop of SendMessages -/

def MAX_BLOCKS_IN_TRANSIT_PER_PEER : ℤ := 128

/-- The blocks of the "getdata" messages sent, and those of the message being made. -/
structure GetData where
  sent : List (List UInt256) := []
  vGetData : List UInt256 := []
  deriving DecidableEq, Repr

/-- One block is added, and a message of 1000 is sent. -/
def GetData.push (msgs : GetData) (hash : UInt256) : GetData :=
  let vGetData := msgs.vGetData ++ [hash]
  if vGetData.length ≥ 1000 then ⟨msgs.sent ++ [vGetData], []⟩ else ⟨msgs.sent, vGetData⟩

/-- The loop condition. -/
def wantsBlocks (fDisconnect : Bool) (state : CNodeState) : Bool :=
  !fDisconnect && state.nBlocksToDownload != 0 &&
    decide (state.nBlocksInFlight < MAX_BLOCKS_IN_TRANSIT_PER_PEER)

/-- The loop, with the times that its turns read ; `none` also if the fuel does not do. -/
def getDataBlocks (fDisconnect : Bool) (nodeid : NodeId) :
    ℕ → (ℕ → ℤ × ℤ) → GetData → NodeStates → Option (GetData × NodeStates)
  | 0, _, _, _ => none
  | fuel + 1, nTime, msgs, s => do
    let state ← s.mapNodeState[nodeid]?
    if wantsBlocks fDisconnect state then
      let front ← state.vBlocksToDownload.head?
      let s ← s.markBlockAsInFlight (nTime 0) nodeid front.2
      getDataBlocks fDisconnect nodeid fuel (fun n => nTime (n + 1)) (msgs.push front.2) s
    else some (msgs, s)

end NodeStates

/-! ## Calls -/

inductive NodeCall where
  | initializeNode (nodeid : NodeId) (addrName : Bytes)
  | finalizeNode (nodeid : NodeId)
  | addBlockToQueue (banscore : ℤ) (nodeid : NodeId) (hash : UInt256)
  | markBlockAsReceived (nTime : ℤ) (hash : UInt256) (nodeFrom : NodeId)
  | markBlockAsInFlight (nTime : ℤ × ℤ) (nodeid : NodeId) (hash : UInt256)
  | getDataBlocks (fDisconnect : Bool) (nodeid : NodeId) (fuel : ℕ) (nTime : ℕ → ℤ × ℤ)

def NodeCall.exec (s : NodeStates) : NodeCall → Option NodeStates
  | .initializeNode nodeid addrName => some (s.initializeNode nodeid addrName)
  | .finalizeNode nodeid => s.finalizeNode nodeid
  | .addBlockToQueue banscore nodeid hash => some (s.addBlockToQueue banscore nodeid hash).2
  | .markBlockAsReceived nTime hash nodeFrom => s.markBlockAsReceived nTime hash nodeFrom
  | .markBlockAsInFlight nTime nodeid hash => s.markBlockAsInFlight nTime nodeid hash
  | .getDataBlocks fDisconnect nodeid fuel nTime =>
    (NodeStates.getDataBlocks fDisconnect nodeid fuel nTime {} s).map Prod.snd

/-- Calls one after the other, from the empty state. -/
def runCalls (calls : List NodeCall) : Option NodeStates := calls.foldlM NodeCall.exec {}

/-! ## The bookkeeping -/

/-- A list of each node that is there. -/
def listsOf {α : Type} (f : CNodeState → Cells α) (m : MapNodeState) : NodeId → Option (Cells α) :=
  fun id => m[id]?.map f

section ListsOf

variable {α : Type} {f : CNodeState → Cells α} {m : MapNodeState} {id : NodeId} {state : CNodeState}

theorem listsOf_insert : listsOf f (m.insert id state) =
    Function.update (listsOf f m) id (some (f state)) := by
  ext1 n
  rw [listsOf, Std.ExtTreeMap.getElem?_insert]
  by_cases hn : n = id
  · rw [hn, if_pos Std.ReflCmp.compare_self, Function.update_self]
    rfl
  · rw [if_neg fun h => hn (Std.LawfulEqOrd.eq_of_compare h).symm, Function.update_of_ne hn]
    rfl

theorem listsOf_eq (h : m[id]? = some state) : listsOf f m id = some (f state) := by
  rw [listsOf, h, Option.map_some]

/-- A list that is put back as it was. -/
theorem listsOf_insert_same {state' : CNodeState} (h : m[id]? = some state)
    (hf : f state' = f state) : listsOf f (m.insert id state') = listsOf f m := by
  rw [listsOf_insert, hf, ← listsOf_eq h, Function.update_eq_self]

theorem listsOf_erase : listsOf f (m.erase id) = Function.update (listsOf f m) id none := by
  ext1 n
  rw [listsOf, Std.ExtTreeMap.getElem?_erase]
  by_cases hn : n = id
  · rw [hn, if_pos Std.ReflCmp.compare_self, Function.update_self, Option.map_none]
  · rw [if_neg fun h => hn (Std.LawfulEqOrd.eq_of_compare h).symm, Function.update_of_ne hn]
    rfl

end ListsOf

section MapBlocks

variable {m : MapBlocks} {hash : UInt256}

theorem mapBlocks_insert {entry : NodeId × ℕ} : (fun k : UInt256 => (m.insert hash entry)[k]?) =
    Function.update (fun k : UInt256 => m[k]?) hash (some entry) := by
  ext1 k
  rw [Std.ExtTreeMap.getElem?_insert]
  by_cases hk : k = hash
  · rw [hk, if_pos Std.ReflCmp.compare_self, Function.update_self]
  · rw [if_neg fun h => hk (Std.LawfulEqOrd.eq_of_compare h).symm, Function.update_of_ne hk]

theorem mapBlocks_erase : (fun k : UInt256 => (m.erase hash)[k]?) =
    Function.update (fun k : UInt256 => m[k]?) hash none := by
  ext1 k
  rw [Std.ExtTreeMap.getElem?_erase]
  by_cases hk : k = hash
  · rw [hk, if_pos Std.ReflCmp.compare_self, Function.update_self]
  · rw [if_neg fun h => hk (Std.LawfulEqOrd.eq_of_compare h).symm, Function.update_of_ne hk]

/-- All hashes of a list are erased. -/
theorem mapBlocks_foldl_erase {α : Type} (key : α → UInt256) (k : UInt256) :
    ∀ (l : Cells α) (m : MapBlocks), (l.foldl (fun m c => m.erase (key c.2)) m)[k]? =
      if k ∈ l.map (fun c => key c.2) then none else m[k]?
  | [], m => by simp
  | c :: l, m => by
    rw [List.foldl_cons, mapBlocks_foldl_erase key k l, congrFun mapBlocks_erase k, List.map_cons]
    by_cases hk : k = key c.2
    · simp [hk]
    · simp only [Function.update_of_ne hk, List.mem_cons, hk, false_or]

end MapBlocks

/-- The maps index the lists, no block is in both, and the counters count. -/
structure Bookkeeping (s : NodeStates) : Prop where
  toDownload : Indexed (listsOf CNodeState.vBlocksToDownload s.mapNodeState) id
    (fun hash => s.mapBlocksToDownload[hash]?) s.nextIterator
  inFlight : Indexed (listsOf CNodeState.vBlocksInFlight s.mapNodeState) QueuedBlock.hash
    (fun hash => s.mapBlocksInFlight[hash]?) s.nextIterator
  disjoint : ∀ hash : UInt256, s.mapBlocksToDownload[hash]? = none ∨
    s.mapBlocksInFlight[hash]? = none
  counts : ∀ (nodeid : NodeId) (state : CNodeState), s.mapNodeState[nodeid]? = some state →
    state.nBlocksToDownload = state.vBlocksToDownload.length ∧
      state.nBlocksInFlight = state.vBlocksInFlight.length

namespace Bookkeeping

variable {s : NodeStates} {nodeid : NodeId} {hash : UInt256} {state : CNodeState}

theorem listsOf_empty {α : Type} (f : CNodeState → Cells α) : listsOf f ∅ = fun _ => none := by
  ext1 n
  rw [listsOf, Std.ExtTreeMap.getElem?_empty, Option.map_none]

theorem mapBlocks_empty : (fun k : UInt256 => (∅ : MapBlocks)[k]?) = fun _ => none := by
  ext1 k
  exact Std.ExtTreeMap.getElem?_empty

theorem empty : Bookkeeping {} where
  toDownload := by
    rw [listsOf_empty, mapBlocks_empty]
    exact Indexed.empty _
  inFlight := by
    rw [listsOf_empty, mapBlocks_empty]
    exact Indexed.empty _
  disjoint hash := .inl (congrFun mapBlocks_empty hash)
  counts nodeid state h := by simp at h

/-- The counters of a node, when one node is put back and the others stay. -/
theorem counts_insert (h : Bookkeeping s)
    (hdown : state.nBlocksToDownload = state.vBlocksToDownload.length)
    (hflight : state.nBlocksInFlight = state.vBlocksInFlight.length) (n : NodeId) (st : CNodeState)
    (hst : (s.mapNodeState.insert nodeid state)[n]? = some st) :
    st.nBlocksToDownload = st.vBlocksToDownload.length ∧
      st.nBlocksInFlight = st.vBlocksInFlight.length := by
  rw [Std.ExtTreeMap.getElem?_insert] at hst
  split at hst
  · cases hst
    exact ⟨hdown, hflight⟩
  · exact h.counts n st hst

/-- A node is there if it has a list. -/
theorem contains_eq {α : Type} (f : CNodeState → Cells α) {m : MapNodeState} :
    m.contains nodeid = (listsOf f m nodeid).isSome := by
  rw [listsOf, Option.isSome_map, Std.ExtTreeMap.isSome_getElem?_eq_contains]

/-! ## What the calls keep -/

theorem initializeNode (h : Bookkeeping s) (addrName : Bytes) :
    Bookkeeping (s.initializeNode nodeid addrName) := by
  unfold NodeStates.initializeNode
  cases hst : s.mapNodeState[nodeid]? with
  | none =>
    have hnone : ∀ {α : Type} (f : CNodeState → Cells α), listsOf f s.mapNodeState nodeid = none :=
      fun f => by rw [listsOf, hst, Option.map_none]
    refine ⟨?_, ?_, h.disjoint, h.counts_insert rfl rfl⟩
    · rw [listsOf_insert]
      exact h.toDownload.add (hnone _)
    · rw [listsOf_insert]
      exact h.inFlight.add (hnone _)
  | some state =>
    obtain ⟨hdown, hflight⟩ := h.counts nodeid state hst
    refine ⟨?_, ?_, h.disjoint, h.counts_insert hdown hflight⟩
    · dsimp only
      rw [listsOf_insert_same hst]
      exacts [h.toDownload, rfl]
    · dsimp only
      rw [listsOf_insert_same hst]
      exacts [h.inFlight, rfl]

theorem finalizeNode (h : Bookkeeping s) (hst : s.mapNodeState[nodeid]? = some state) :
    ∃ s', s.finalizeNode nodeid = some s' ∧ Bookkeeping s' := by
  refine ⟨_, by rw [NodeStates.finalizeNode, hst]; rfl, ?_, ?_, fun hash => ?_, fun n st hn => ?_⟩
  · rw [listsOf_erase]
    exact h.toDownload.drop (listsOf_eq hst) fun k => mapBlocks_foldl_erase id k _ _
  · rw [listsOf_erase]
    exact h.inFlight.drop (listsOf_eq hst) fun k => mapBlocks_foldl_erase QueuedBlock.hash k _ _
  · refine (h.disjoint hash).imp (fun hnone => ?_) fun hnone => ?_
    · exact (mapBlocks_foldl_erase id hash _ _).trans (by rw [hnone, ite_self])
    · exact (mapBlocks_foldl_erase QueuedBlock.hash hash _ _).trans (by rw [hnone, ite_self])
  · rw [Std.ExtTreeMap.getElem?_erase] at hn
    split at hn
    · cases hn
    · exact h.counts n st hn

/-- The entry that the map of the blocks to download has is where it says. -/
theorem mem_toDownload (h : Bookkeeping s) {it : ℕ}
    (hget : s.mapBlocksToDownload[hash]? = some (nodeid, it)) :
    ∃ state, s.mapNodeState[nodeid]? = some state ∧ (it, hash) ∈ state.vBlocksToDownload := by
  obtain ⟨l, a, hl, hmem, rfl⟩ := h.toDownload.complete hget
  obtain ⟨state, hst, rfl⟩ := Option.map_eq_some_iff.mp hl
  exact ⟨state, hst, hmem⟩

theorem mem_inFlight (h : Bookkeeping s) {it : ℕ}
    (hget : s.mapBlocksInFlight[hash]? = some (nodeid, it)) :
    ∃ state entry, s.mapNodeState[nodeid]? = some state ∧ (it, entry) ∈ state.vBlocksInFlight ∧
      entry.hash = hash := by
  obtain ⟨l, a, hl, hmem, hkey⟩ := h.inFlight.complete hget
  obtain ⟨state, hst, rfl⟩ := Option.map_eq_some_iff.mp hl
  exact ⟨state, a, hst, hmem, hkey⟩

/-- The lists of blocks to download, in a state. -/
abbrev downloads (s : NodeStates) : NodeId → Option (Cells UInt256) :=
  listsOf CNodeState.vBlocksToDownload s.mapNodeState

/-- The lists of blocks in flight, in a state. -/
abbrev flights (s : NodeStates) : NodeId → Option (Cells QueuedBlock) :=
  listsOf CNodeState.vBlocksInFlight s.mapNodeState

theorem contains_congr {α : Type} {f : CNodeState → Cells α} {m m' : MapNodeState}
    (h : listsOf f m' = listsOf f m) (n : NodeId) : m'.contains n = m.contains n := by
  rw [contains_eq f, h, contains_eq f]

theorem eraseToDownload_eq {it : ℕ} (hget : s.mapBlocksToDownload[hash]? = some (nodeid, it))
    (hst : s.mapNodeState[nodeid]? = some state) (hmem : (it, hash) ∈ state.vBlocksToDownload) :
    s.eraseToDownload hash = some { s with
      mapNodeState := s.mapNodeState.insert nodeid { state with
        vBlocksToDownload := state.vBlocksToDownload.filter (·.1 != it)
        nBlocksToDownload := state.nBlocksToDownload - 1 }
      mapBlocksToDownload := s.mapBlocksToDownload.erase hash } := by
  simp only [NodeStates.eraseToDownload, hget, hst, Cells.erase_eq hmem, Option.bind_eq_bind,
    Option.bind_some]

theorem eraseInFlight_eq {it : ℕ} {nTime : ℤ} {nodeFrom : NodeId} {queued : QueuedBlock}
    (hget : s.mapBlocksInFlight[queued.hash]? = some (nodeid, it))
    (hst : s.mapNodeState[nodeid]? = some state) (hmem : (it, queued) ∈ state.vBlocksInFlight) :
    s.eraseInFlight nTime queued.hash nodeFrom = some { s with
      mapNodeState := s.mapNodeState.insert nodeid { state with
        vBlocksInFlight := state.vBlocksInFlight.filter (·.1 != it)
        nBlocksInFlight := state.nBlocksInFlight - 1
        nLastBlockReceive := if nodeid = nodeFrom then nTime else state.nLastBlockReceive }
      mapBlocksInFlight := s.mapBlocksInFlight.erase queued.hash } := by
  simp only [NodeStates.eraseInFlight, hget, hst, Cells.erase_eq hmem, Option.bind_eq_bind,
    Option.bind_some]

/-- Afterwards the block is not to be downloaded, and a list that had it is one shorter. -/
theorem eraseToDownload (h : Bookkeeping s) (hash : UInt256) :
    ∃ s', s.eraseToDownload hash = some s' ∧ Bookkeeping s' ∧ flights s' = flights s ∧
      s'.mapBlocksToDownload[hash]? = none ∧ s'.mapBlocksInFlight = s.mapBlocksInFlight ∧
      ∀ n it, s.mapBlocksToDownload[hash]? = some (n, it) → ∃ l l', downloads s n = some l ∧
        downloads s' n = some l' ∧ l'.length + 1 = l.length := by
  cases hget : s.mapBlocksToDownload[hash]? with
  | none => exact ⟨s, by rw [NodeStates.eraseToDownload, hget], h, rfl, hget, rfl, nofun⟩
  | some entry =>
    obtain ⟨n, it⟩ := entry
    obtain ⟨state, hst, hmem⟩ := h.mem_toDownload hget
    obtain ⟨hdown, hflight⟩ := h.counts n state hst
    have hlen := length_filter_ne (h.toDownload.nodup (listsOf_eq hst)) hmem
    refine ⟨_, eraseToDownload_eq hget hst hmem,
      ⟨?_, ?_, fun k => ?_, h.counts_insert ?_ hflight⟩, listsOf_insert_same hst rfl, ?_,
      rfl, ?_⟩
    · dsimp only
      rw [listsOf_insert, mapBlocks_erase]
      exact h.toDownload.erase hget (listsOf_eq hst)
    · dsimp only
      rw [listsOf_insert_same hst]
      exacts [h.inFlight, rfl]
    · refine (h.disjoint k).imp (fun hnone => ?_) fun hnone => hnone
      rw [congrFun mapBlocks_erase k, Function.update_apply, hnone, ite_self]
    · dsimp only
      omega
    · rw [congrFun mapBlocks_erase hash, Function.update_self]
    · rintro _ _ ⟨⟩
      refine ⟨_, _, listsOf_eq hst, ?_, hlen⟩
      rw [downloads, listsOf_insert, Function.update_self]

/-- Afterwards the block is not in flight. -/
theorem eraseInFlight (h : Bookkeeping s) (nTime : ℤ) (hash : UInt256) (nodeFrom : NodeId) :
    ∃ s', s.eraseInFlight nTime hash nodeFrom = some s' ∧ Bookkeeping s' ∧
      downloads s' = downloads s ∧ s'.mapBlocksInFlight[hash]? = none ∧
      s'.mapBlocksToDownload = s.mapBlocksToDownload := by
  cases hget : s.mapBlocksInFlight[hash]? with
  | none => exact ⟨s, by rw [NodeStates.eraseInFlight, hget], h, rfl, hget, rfl⟩
  | some entry =>
    obtain ⟨n, it⟩ := entry
    obtain ⟨state, queued, hst, hmem, rfl⟩ := h.mem_inFlight hget
    obtain ⟨hdown, hflight⟩ := h.counts n state hst
    have hlen := length_filter_ne (h.inFlight.nodup (listsOf_eq hst)) hmem
    refine ⟨_, eraseInFlight_eq hget hst hmem,
      ⟨?_, ?_, fun k => ?_, h.counts_insert hdown ?_⟩, listsOf_insert_same hst rfl, ?_,
      rfl⟩
    · dsimp only
      rw [listsOf_insert_same hst]
      exacts [h.toDownload, rfl]
    · dsimp only
      rw [listsOf_insert, mapBlocks_erase]
      exact h.inFlight.erase hget (listsOf_eq hst)
    · refine (h.disjoint k).imp (fun hnone => hnone) fun hnone => ?_
      rw [congrFun mapBlocks_erase k, Function.update_apply, hnone, ite_self]
    · dsimp only
      omega
    · rw [congrFun mapBlocks_erase _, Function.update_self]

/-- Afterwards the block is in no list, and the nodes are the same. -/
theorem markBlockAsReceived (h : Bookkeeping s) (nTime : ℤ) (hash : UInt256) (nodeFrom : NodeId) :
    ∃ s', s.markBlockAsReceived nTime hash nodeFrom = some s' ∧ Bookkeeping s' ∧
      (∀ n, s'.mapNodeState.contains n = s.mapNodeState.contains n) ∧
      s'.mapBlocksToDownload[hash]? = none ∧ s'.mapBlocksInFlight[hash]? = none ∧
      ∀ n it, s.mapBlocksToDownload[hash]? = some (n, it) → ∃ l l', downloads s n = some l ∧
        downloads s' n = some l' ∧ l'.length + 1 = l.length := by
  obtain ⟨s₁, hs₁, h₁, hflights, hnone, -, hlen⟩ := h.eraseToDownload hash
  obtain ⟨s₂, hs₂, h₂, hdowns, hnone₂, hmap⟩ := h₁.eraseInFlight nTime hash nodeFrom
  refine ⟨s₂, by rw [NodeStates.markBlockAsReceived, hs₁, Option.bind_some, hs₂], h₂, fun n => ?_,
    by rw [hmap, hnone], hnone₂, by rwa [hdowns]⟩
  exact (contains_congr hdowns n).trans (contains_congr hflights n)

/-- A new block is put into the queue. -/
theorem addBlockToQueue (h : Bookkeeping s) (banscore : ℤ) (nodeid : NodeId) (hash : UInt256) :
    Bookkeeping (s.addBlockToQueue banscore nodeid hash).2 := by
  unfold NodeStates.addBlockToQueue
  split
  · exact h
  rename_i hnew
  simp only [Bool.or_eq_true, not_or, Bool.not_eq_true, Std.ExtTreeMap.contains_eq_isSome_getElem?,
    Option.isSome_eq_false_iff, Option.isNone_iff_eq_none] at hnew
  cases hst : s.mapNodeState[nodeid]? with
  | none => exact h
  | some state =>
    obtain ⟨hdown, hflight⟩ := h.counts nodeid state hst
    set queued : CNodeState := { state with
      vBlocksToDownload := state.vBlocksToDownload ++ [(s.nextIterator, hash)]
      nBlocksToDownload := state.nBlocksToDownload + 1 } with hqueued
    set put := if queued.nBlocksToDownload > 5000 then NodeStates.misbehaving banscore 10 queued
      else queued with hput
    -- a score does not touch the lists and counters
    have hsame : put.vBlocksToDownload = queued.vBlocksToDownload ∧
        put.nBlocksToDownload = queued.nBlocksToDownload ∧
        put.vBlocksInFlight = state.vBlocksInFlight ∧
        put.nBlocksInFlight = state.nBlocksInFlight := by
      rw [hput, NodeStates.misbehaving, if_neg (by decide : (10 : ℤ) ≠ 0)]
      split <;> exact ⟨rfl, rfl, rfl, rfl⟩
    obtain ⟨hv, hn, hvf, hnf⟩ := hsame
    refine ⟨?_, ?_, fun k => ?_, h.counts_insert ?_ ?_⟩
    · dsimp only
      rw [listsOf_insert, mapBlocks_insert, hv]
      exact h.toDownload.push (listsOf_eq hst) hnew.1
    · dsimp only
      rw [listsOf_insert_same hst hvf]
      exact h.inFlight.mono (Nat.le_succ _)
    · rw [congrFun mapBlocks_insert k]
      by_cases hk : k = hash
      · exact .inr (hk ▸ hnew.2)
      · rw [Function.update_of_ne hk]
        exact h.disjoint k
    · rw [hn, hv, hqueued, List.length_append, List.length_singleton]
      dsimp only
      omega
    · rw [hnf, hvf, hflight]

/-- A block that is in no list is put in flight. -/
theorem pushInFlight (h : Bookkeeping s) (hlive : s.mapNodeState.contains nodeid = true)
    (hnone : s.mapBlocksToDownload[hash]? = none) (hnone' : s.mapBlocksInFlight[hash]? = none)
    (nTime : ℤ) : ∃ s', s.pushInFlight nTime nodeid hash = some s' ∧ Bookkeeping s' ∧
      downloads s' = downloads s := by
  rw [Std.ExtTreeMap.contains_eq_isSome_getElem?, Option.isSome_iff_exists] at hlive
  obtain ⟨state, hst⟩ := hlive
  obtain ⟨hdown, hflight⟩ := h.counts nodeid state hst
  simp only [NodeStates.pushInFlight, hst, Option.bind_eq_bind, Option.bind_some, Option.some.injEq,
    exists_eq_left']
  refine ⟨⟨?_, ?_, fun k => ?_, h.counts_insert hdown ?_⟩, listsOf_insert_same hst rfl⟩
  · dsimp only
    rw [listsOf_insert_same hst]
    exacts [h.toDownload.mono (Nat.le_succ _), rfl]
  · dsimp only
    rw [listsOf_insert, mapBlocks_insert]
    exact h.inFlight.push (listsOf_eq hst) hnone'
  · rw [congrFun mapBlocks_insert k]
    by_cases hk : k = hash
    · exact .inl (hk ▸ hnone)
    · rw [Function.update_of_ne hk]
      exact h.disjoint k
  · rw [List.length_append, List.length_singleton]
    dsimp only
    omega

theorem markBlockAsInFlight (h : Bookkeeping s) (hlive : s.mapNodeState.contains nodeid = true)
    (nTime : ℤ × ℤ) (hash : UInt256) :
    ∃ s', s.markBlockAsInFlight nTime nodeid hash = some s' ∧ Bookkeeping s' ∧
      (∀ n, s'.mapNodeState.contains n = s.mapNodeState.contains n) ∧
      ∀ n it, s.mapBlocksToDownload[hash]? = some (n, it) → ∃ l l', downloads s n = some l ∧
        downloads s' n = some l' ∧ l'.length + 1 = l.length := by
  obtain ⟨s₁, hs₁, h₁, hcont, hnone, hnone', hlen⟩ := h.markBlockAsReceived nTime.1 hash (-1)
  obtain ⟨s₂, hs₂, h₂, hdowns⟩ := h₁.pushInFlight ((hcont nodeid).trans hlive) hnone hnone' nTime.2
  refine ⟨s₂, by rw [NodeStates.markBlockAsInFlight, if_pos hlive, hs₁, Option.bind_some, hs₂], h₂,
    fun n => ?_, by rwa [hdowns]⟩
  exact (contains_congr hdowns n).trans (hcont n)

/-! ## The loop that requests blocks -/

/-- A turn of the loop requests the first block to download, and one fewer is left. -/
theorem turn (h : Bookkeeping s) {fDisconnect : Bool} (hst : s.mapNodeState[nodeid]? = some state)
    (hwants : NodeStates.wantsBlocks fDisconnect state = true) (nTime : ℤ × ℤ) :
    ∃ front s', state.vBlocksToDownload.head? = some front ∧
      s.markBlockAsInFlight nTime nodeid front.2 = some s' ∧ Bookkeeping s' ∧
      ∃ state', s'.mapNodeState[nodeid]? = some state' ∧
        state'.vBlocksToDownload.length + 1 = state.vBlocksToDownload.length := by
  obtain ⟨hdown, -⟩ := h.counts nodeid state hst
  simp only [NodeStates.wantsBlocks, Bool.and_eq_true, bne_iff_ne] at hwants
  obtain ⟨front, rest, hlist⟩ : ∃ front rest, state.vBlocksToDownload = front :: rest := by
    refine List.exists_cons_of_ne_nil fun hnil => hwants.1.2 ?_
    rw [hdown, hnil, List.length_nil, Nat.cast_zero]
  have hlive : s.mapNodeState.contains nodeid = true := by
    rw [contains_eq CNodeState.vBlocksToDownload, listsOf_eq hst, Option.isSome_some]
  have hmem : front ∈ state.vBlocksToDownload := hlist ▸ List.mem_cons_self
  obtain ⟨s', hs', h', -, hlen⟩ := h.markBlockAsInFlight hlive nTime front.2
  obtain ⟨l, l', hl, hl', hlen⟩ := hlen nodeid front.1 (h.toDownload.sound (listsOf_eq hst) hmem)
  obtain rfl := Option.some.inj ((listsOf_eq hst).symm.trans hl)
  obtain ⟨state', hst', rfl⟩ := Option.map_eq_some_iff.mp hl'
  exact ⟨front, s', by rw [hlist, List.head?_cons], hs', h', state', hst', hlen⟩

/-- The loop keeps the bookkeeping, and it ends if the fuel does for the blocks there are. -/
theorem getDataBlocks {fDisconnect : Bool} : ∀ (fuel : ℕ) {nTime : ℕ → ℤ × ℤ}
    {msgs : NodeStates.GetData} {s : NodeStates} {state : CNodeState}, Bookkeeping s →
    s.mapNodeState[nodeid]? = some state →
    (∀ r, s.getDataBlocks fDisconnect nodeid fuel nTime msgs = some r → Bookkeeping r.2) ∧
      (state.vBlocksToDownload.length < fuel →
        ∃ r, s.getDataBlocks fDisconnect nodeid fuel nTime msgs = some r)
  | 0, _, _, _, _, _, _ => ⟨nofun, fun hlt => (Nat.not_lt_zero _ hlt).elim⟩
  | fuel + 1, nTime, msgs, s, state, h, hst => by
    by_cases hwants : NodeStates.wantsBlocks fDisconnect state = true
    · obtain ⟨front, s', hfront, hs', h', state', hst', hlen⟩ := h.turn hst hwants (nTime 0)
      have hloop : s.getDataBlocks fDisconnect nodeid (fuel + 1) nTime msgs =
          s'.getDataBlocks fDisconnect nodeid fuel (fun n => nTime (n + 1)) (msgs.push front.2) := by
        simp only [NodeStates.getDataBlocks, hst, hwants, hfront, hs', Option.bind_eq_bind,
          Option.bind_some, if_true]
      obtain ⟨hkeeps, hends⟩ := getDataBlocks fuel h' hst'
      rw [hloop]
      exact ⟨hkeeps, fun hlt => hends (by omega)⟩
    · have hloop : s.getDataBlocks fDisconnect nodeid (fuel + 1) nTime msgs = some (msgs, s) := by
        simp only [NodeStates.getDataBlocks, hst, hwants, Option.bind_eq_bind, Option.bind_some,
          Bool.false_eq_true, if_false]
      rw [hloop]
      refine ⟨fun r hr => ?_, fun _ => ⟨_, rfl⟩⟩
      cases hr
      exact h

end Bookkeeping

/-! ## Runs -/

/-- A call on a node that is there, with fuel for the blocks to download from it. -/
def NodeCall.Enabled (s : NodeStates) : NodeCall → Prop
  | .finalizeNode nodeid => ∃ state, s.mapNodeState[nodeid]? = some state
  | .markBlockAsInFlight _ nodeid _ => ∃ state, s.mapNodeState[nodeid]? = some state
  | .getDataBlocks _ nodeid fuel _ =>
    ∃ state, s.mapNodeState[nodeid]? = some state ∧ state.nBlocksToDownload < fuel
  | _ => True

variable {s s' : NodeStates}

/-- A call keeps the bookkeeping, and with it no call on a node that is there fails. -/
theorem NodeCall.exec_spec (h : Bookkeeping s) (call : NodeCall) :
    (∀ s', call.exec s = some s' → Bookkeeping s') ∧
      (call.Enabled s → ∃ s', call.exec s = some s') := by
  -- a call that succeeds when it is enabled, and keeps the bookkeeping then
  have htotal : ∀ {p : Prop}, (∃ s', call.exec s = some s' ∧ Bookkeeping s') →
      (∀ s', call.exec s = some s' → Bookkeeping s') ∧ (p → ∃ s', call.exec s = some s') := by
    rintro p ⟨s', hs', h'⟩
    exact ⟨fun s'' hs'' => Option.some.inj (hs'.symm.trans hs'') ▸ h', fun _ => ⟨s', hs'⟩⟩
  have hnone : ∀ {p : Prop}, ¬ p → call.exec s = none →
      (∀ s', call.exec s = some s' → Bookkeeping s') ∧ (p → ∃ s', call.exec s = some s') := by
    intro p hp hnone
    rw [hnone]
    exact ⟨nofun, fun h => absurd h hp⟩
  match call with
  | .initializeNode nodeid addrName => exact htotal ⟨_, rfl, h.initializeNode addrName⟩
  | .addBlockToQueue banscore nodeid hash =>
    exact htotal ⟨_, rfl, h.addBlockToQueue banscore nodeid hash⟩
  | .markBlockAsReceived nTime hash nodeFrom =>
    obtain ⟨s', hs', h', -⟩ := h.markBlockAsReceived nTime hash nodeFrom
    exact htotal ⟨s', hs', h'⟩
  | .finalizeNode nodeid =>
    cases hst : s.mapNodeState[nodeid]? with
    | none =>
      refine hnone (fun ⟨state, hget⟩ => ?_) (by rw [exec, NodeStates.finalizeNode, hst]; rfl)
      rw [hst] at hget
      cases hget
    | some state => exact htotal (h.finalizeNode hst)
  | .markBlockAsInFlight nTime nodeid hash =>
    by_cases hlive : s.mapNodeState.contains nodeid = true
    · obtain ⟨s', hs', h', -⟩ := h.markBlockAsInFlight hlive nTime hash
      exact htotal ⟨s', hs', h'⟩
    · refine hnone (fun ⟨state, hget⟩ => hlive ?_)
        (by rw [exec, NodeStates.markBlockAsInFlight, if_neg hlive])
      rw [Std.ExtTreeMap.contains_eq_isSome_getElem?, hget, Option.isSome_some]
  | .getDataBlocks fDisconnect nodeid fuel nTime =>
    cases hst : s.mapNodeState[nodeid]? with
    | none =>
      refine hnone (fun ⟨state, hget, _⟩ => ?_) ?_
      · rw [hst] at hget
        cases hget
      · cases fuel with
        | zero => rfl
        | succ fuel => simp only [exec, NodeStates.getDataBlocks, hst, Option.bind_eq_bind,
            Option.bind_none, Option.map_none]
    | some state =>
      obtain ⟨hdown, -⟩ := h.counts nodeid state hst
      obtain ⟨hkeeps, hends⟩ := Bookkeeping.getDataBlocks fuel h hst
      constructor
      · intro s' hs'
        obtain ⟨r, hr, rfl⟩ := Option.map_eq_some_iff.mp hs'
        exact hkeeps r hr
      · rintro ⟨state', hget, hlt⟩
        obtain rfl := Option.some.inj (hst.symm.trans hget)
        obtain ⟨r, hr⟩ := hends (by omega)
        exact ⟨r.2, by rw [exec, hr, Option.map_some]⟩

/-- The blocks of a node, those to download and those in flight. -/
def CNodeState.blocks (state : CNodeState) : List UInt256 :=
  state.vBlocksToDownload.map Prod.snd ++ state.vBlocksInFlight.map fun entry => entry.2.hash

/-- No block is in two places, the maps have exactly the entries of the lists, with their node
and iterator, and the counters are the lengths. -/
structure Consistent (s : NodeStates) : Prop where
  once : (s.mapNodeState.toList.flatMap fun item => item.2.blocks).Nodup
  toDownload : ∀ (hash : UInt256) (nodeid : NodeId) (it : ℕ),
    s.mapBlocksToDownload[hash]? = some (nodeid, it) ↔
      ∃ state, s.mapNodeState[nodeid]? = some state ∧ (it, hash) ∈ state.vBlocksToDownload
  inFlight : ∀ (hash : UInt256) (nodeid : NodeId) (it : ℕ),
    s.mapBlocksInFlight[hash]? = some (nodeid, it) ↔
      ∃ state entry, s.mapNodeState[nodeid]? = some state ∧ (it, entry) ∈ state.vBlocksInFlight ∧
        entry.hash = hash
  iterators : ∀ (nodeid : NodeId) (state : CNodeState), s.mapNodeState[nodeid]? = some state →
    (state.vBlocksToDownload.map Prod.fst).Nodup ∧ (state.vBlocksInFlight.map Prod.fst).Nodup
  counts : ∀ (nodeid : NodeId) (state : CNodeState), s.mapNodeState[nodeid]? = some state →
    state.nBlocksToDownload = state.vBlocksToDownload.length ∧
      state.nBlocksInFlight = state.vBlocksInFlight.length

/-- A block of a node is in one of the maps, for this node. -/
theorem Bookkeeping.mem_blocks (h : Bookkeeping s) {nodeid : NodeId} {state : CNodeState}
    {hash : UInt256} (hst : s.mapNodeState[nodeid]? = some state) (hmem : hash ∈ state.blocks) :
    (∃ it, s.mapBlocksToDownload[hash]? = some (nodeid, it)) ∨
      ∃ it, s.mapBlocksInFlight[hash]? = some (nodeid, it) := by
  rw [CNodeState.blocks, List.mem_append, List.mem_map, List.mem_map] at hmem
  obtain ⟨c, hc, rfl⟩ | ⟨c, hc, rfl⟩ := hmem
  · exact .inl ⟨c.1, h.toDownload.sound (listsOf_eq hst) hc⟩
  · exact .inr ⟨c.1, h.inFlight.sound (listsOf_eq hst) hc⟩

/-- The blocks of two nodes are different. -/
theorem Bookkeeping.owner_unique (h : Bookkeeping s) {n n' : NodeId} {state state' : CNodeState}
    {hash : UInt256} (hst : s.mapNodeState[n]? = some state) (hmem : hash ∈ state.blocks)
    (hst' : s.mapNodeState[n']? = some state') (hmem' : hash ∈ state'.blocks) : n = n' := by
  obtain ⟨it, hit⟩ | ⟨it, hit⟩ := h.mem_blocks hst hmem <;>
    obtain ⟨it', hit'⟩ | ⟨it', hit'⟩ := h.mem_blocks hst' hmem'
  · cases hit.symm.trans hit'
    rfl
  · rcases h.disjoint hash with hnone | hnone
    · cases hnone.symm.trans hit
    · cases hnone.symm.trans hit'
  · rcases h.disjoint hash with hnone | hnone
    · cases hnone.symm.trans hit'
    · cases hnone.symm.trans hit
  · cases hit.symm.trans hit'
    rfl

theorem Bookkeeping.consistent (h : Bookkeeping s) : Consistent s where
  once := by
    have hget : ∀ {item}, item ∈ s.mapNodeState.toList → s.mapNodeState[item.1]? = some item.2 :=
      fun hitem => Std.ExtTreeMap.mem_toList_iff_getElem?_eq_some.mp hitem
    rw [List.nodup_flatMap]
    constructor
    · intro item hitem
      have hdown := h.toDownload.keys_nodup (listsOf_eq (hget hitem))
      have hflight := h.inFlight.keys_nodup (listsOf_eq (hget hitem))
      refine hdown.append hflight fun hash hd hf => ?_
      obtain ⟨c, hc, rfl⟩ := List.mem_map.mp hd
      obtain ⟨c', hc', heq⟩ := List.mem_map.mp hf
      have hsound := h.toDownload.sound (listsOf_eq (hget hitem)) hc
      have hsound' := h.inFlight.sound (listsOf_eq (hget hitem)) hc'
      rw [heq] at hsound'
      rcases h.disjoint c.2 with hnone | hnone
      · cases hnone.symm.trans hsound
      · cases hnone.symm.trans hsound'
    · refine (Std.ExtTreeMap.distinct_keys_toList (t := s.mapNodeState)).imp_of_mem ?_
      intro item item' hitem hitem' hne hash hmem hmem'
      exact hne (Std.compare_eq_iff_eq.mpr (h.owner_unique (hget hitem) hmem (hget hitem') hmem'))
  toDownload hash nodeid it :=
    ⟨fun hget => h.mem_toDownload hget, fun ⟨state, hst, hmem⟩ =>
      h.toDownload.sound (listsOf_eq hst) hmem⟩
  inFlight hash nodeid it :=
    ⟨fun hget => h.mem_inFlight hget, fun ⟨state, entry, hst, hmem, heq⟩ =>
      heq ▸ h.inFlight.sound (listsOf_eq hst) hmem⟩
  iterators nodeid state hst :=
    ⟨h.toDownload.nodup (listsOf_eq hst), h.inFlight.nodup (listsOf_eq hst)⟩
  counts := h.counts

/-- In every state that calls reach, the maps and lists tell the same, and no call on a node
that is there fails. -/
theorem consistent_of_runCalls {calls : List NodeCall} (hrun : runCalls calls = some s) :
    Consistent s ∧ ∀ call : NodeCall, call.Enabled s → ∃ s', call.exec s = some s' := by
  have h : Bookkeeping s := Machine.invariant_of_foldlM
    (fun s call s' h => (call.exec_spec h).1 s') calls hrun .empty
  exact ⟨h.consistent, fun call => (call.exec_spec h).2⟩

/-- A node comes, a block is queued for it and requested from it, and another is queued. -/
def requestCalls : List NodeCall :=
  [.initializeNode 0 [], .addBlockToQueue 100 0 7, .getDataBlocks false 0 2 fun _ => (0, 0),
    .addBlockToQueue 100 0 8]

theorem consistent_of_requestCalls :
    Consistent ((runCalls requestCalls).get (by decide)) :=
  (consistent_of_runCalls (Option.some_get _).symm).1

end Ticoin
