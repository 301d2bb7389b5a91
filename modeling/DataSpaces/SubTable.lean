import Mathlib.Data.List.Range
import DataSpaces.Lib.Links
import DataSpaces.Lib.Runs
import DataSpaces.Subs

/-!
# SubTable — where a client keeps its subscriptions (`register_client_sub`, `dspaces_get_sub`, `dspaces_move_sub`)

The handles are in `SUB_HASH_SIZE` singly linked lists, by the remainder of their id, until a notification
was handled for them; then they are in `done_list`.  Nodes are numbers, in the order of their allocation.
The link to the first node of a list is place `none` of that list, and the one in the node `r` is place
`some r`.

The loop of `dspaces_get_sub` looks at the first node of the list again and again.

A client that works on its subscriptions keeps them in these lists: those of `SubClient` are what the nodes
say in every run.
-/

namespace DataSpaces

variable {H : Type}

/-- `struct sub_list_node`. -/
structure SubNode (H : Type) where
  next : Option Nat
  subh : H
  id : Nat

/-- The variables of `struct dspaces_client` that lead to a first node. -/
inductive SubHead
  | list (i : Nat)
  | done
  deriving DecidableEq

/-- The part of `struct dspaces_client` that `sub_mutex` protects. -/
structure SubTable (H : Type) where
  node : Nat → Option (SubNode H)
  /-- the node that is allocated next -/
  fresh : Nat
  head : SubHead → Option Nat
  subSerial : Nat

/-- What `dspaces_sub` and `notify_rpc` do to the table. -/
inductive SubCall (H : Type)
  | register (subh : H)
  | move (subId : Nat)

namespace SubTable

def init : SubTable H := ⟨fun _ => none, 0, fun _ => none, 0⟩

def setNode (st : SubTable H) (r : Nat) (node : SubNode H) : SubTable H :=
  { st with node := Function.update st.node r (some node) }

def setHead (st : SubTable H) (h : SubHead) (v : Option Nat) : SubTable H :=
  { st with head := Function.update st.head h v }

/-- What is stored in a place of list `h`. -/
def read (st : SubTable H) (h : SubHead) : Option Nat → Option (Option Nat)
  | none => some (st.head h)
  | some r => (st.node r).map SubNode.next

def write (st : SubTable H) (h : SubHead) (v : Option Nat) : Option Nat → Option (SubTable H)
  | none => some (st.setHead h v)
  | some r => (st.node r).map fun node => st.setNode r { node with next := v }

/-- The walk of `register_client_sub`, of at most `fuel` turns. -/
def findEnd (st : SubTable H) (h : SubHead) : Nat → Option Nat → Option (Option Nat)
  | 0, _ => none
  | fuel + 1, node => do
      match ← st.read h node with
      | none => return node
      | some r => findEnd st h fuel (some r)

/-- `register_client_sub`. -/
def registerClientSub (st : SubTable H) (id : Nat) (subh : H) : Option (SubTable H) := do
  let listidx := id % SUB_HASH_SIZE
  let node ← st.findEnd (.list listidx) (st.fresh + 1) none
  let r := st.fresh
  let st := { st.setNode r ⟨none, subh, id⟩ with fresh := r + 1 }
  st.write (.list listidx) (some r) node

/-- The part of `dspaces_sub` under the mutex. -/
def sub (st : SubTable H) (subh : H) : Option (SubTable H) :=
  { st with subSerial := st.subSerial + 1 }.registerClientSub st.subSerial subh

/-- The loop of `dspaces_get_sub`, of at most `fuel` turns. -/
def getLoop (st : SubTable H) (subId : Nat) : Nat → Option Nat → Option (Option H)
  | 0, _ => none
  | _ + 1, none => some none
  | fuel + 1, some r => do
      let node ← st.node r
      if node.id = subId then return some node.subh
      -- `node` is not advanced
      else getLoop st subId fuel (some r)

/-- `dspaces_get_sub`. -/
def getSub (st : SubTable H) (fuel subId : Nat) : Option (Option H) :=
  st.getLoop subId fuel (st.head (.list (subId % SUB_HASH_SIZE)))

/-- The walk of `dspaces_move_sub`, of at most `fuel` turns. -/
def findSub (st : SubTable H) (h : SubHead) (subId : Nat) : Nat → Option Nat → Option (Option Nat)
  | 0, _ => none
  | fuel + 1, nodep => do
      match ← st.read h nodep with
      | none => return nodep
      | some r =>
          let node ← st.node r
          if node.id = subId then return nodep else findSub st h subId fuel (some r)

/-- `dspaces_move_sub`. -/
def moveSub (st : SubTable H) (subId : Nat) : Option (SubTable H) := do
  let listidx := subId % SUB_HASH_SIZE
  let nodep ← st.findSub (.list listidx) subId (st.fresh + 1) none
  match ← st.read (.list listidx) nodep with
  | none => return st
  | some r =>
      let node ← st.node r
      let st ← st.write (.list listidx) node.next nodep
      let st := st.setNode r { node with next := st.head .done }
      return st.setHead .done (some r)

def step (st : SubTable H) : SubCall H → Option (SubTable H)
  | .register subh => st.sub subh
  | .move subId => st.moveSub subId

def run (calls : List (SubCall H)) (st : SubTable H) : Option (SubTable H) :=
  calls.foldlM step st

theorem isRun : Runs.IsRun (step (H := H)) run := Runs.isRun_foldlM step

end SubTable

/-! ## The finite map -/

/-- The handles with their ids: the ones that can be found, as they were registered, and the ones that
were moved, the last one first. -/
structure SubMap (H : Type) where
  serial : Nat
  live : List (Nat × H)
  done : List (Nat × H)
  ordered : (live.map Prod.fst).Pairwise (· < ·)
  /-- every handle is in one place -/
  once : ((live ++ done).map Prod.fst).Perm (List.range serial)

namespace SubMap

def empty : SubMap H := ⟨0, [], [], List.Pairwise.nil, List.Perm.refl _⟩

/-- The handle that is found for an id. -/
def held (m : SubMap H) (subId : Nat) : Option H :=
  m.live.lookup subId

/-- What a list holds. -/
def entries (m : SubMap H) : SubHead → List (Nat × H)
  | .list i => m.live.filter fun e => e.1 % SUB_HASH_SIZE = i
  | .done => m.done

theorem mem_lt {m : SubMap H} {e : Nat × H} (he : e ∈ m.live ++ m.done) : e.1 < m.serial :=
  List.mem_range.1 (m.once.mem_iff.1 (List.mem_map_of_mem he))

theorem nodup (m : SubMap H) : ((m.live ++ m.done).map Prod.fst).Nodup :=
  m.once.nodup_iff.2 List.nodup_range

theorem held_eq_none {m : SubMap H} {subId : Nat} (hmem : subId ∉ m.live.map Prod.fst) :
    m.held subId = none := by
  refine List.lookup_eq_none_iff.2 fun e he => ?_
  simp only [bne_iff_ne, ne_eq]
  rintro rfl
  exact hmem (List.mem_map_of_mem he)

theorem mem_of_held {m : SubMap H} {subId : Nat} {subh : H} (h : m.held subId = some subh) :
    (subId, subh) ∈ m.live := by
  obtain ⟨l₁, l₂, hl, -⟩ := List.lookup_eq_some_iff.1 h
  rw [hl]
  simp

theorem held_of_mem {m : SubMap H} {e : Nat × H} (he : e ∈ m.live) : m.held e.1 = some e.2 := by
  cases hheld : m.held e.1 with
  | none =>
      have hnone := List.lookup_eq_none_iff.1 hheld e he
      simp at hnone
  | some subh =>
      have hinj := List.inj_on_of_nodup_map (f := Prod.fst) (m.ordered.imp Nat.ne_of_lt) he
        (mem_of_held hheld) rfl
      rw [hinj]

theorem nodup_entries (m : SubMap H) (h : SubHead) : ((m.entries h).map Prod.fst).Nodup := by
  have hall := m.nodup
  rw [List.map_append] at hall
  cases h with
  | list i => exact (List.Nodup.of_append_left hall).sublist (List.filter_sublist.map _)
  | done => exact List.Nodup.of_append_right hall

/-- Two lists have no handle in common. -/
theorem entries_disjoint {m : SubMap H} {h h' : SubHead} {a : Nat} (ha : a ∈ (m.entries h).map Prod.fst)
    (ha' : a ∈ (m.entries h').map Prod.fst) : h = h' := by
  have hall := m.nodup
  rw [List.map_append] at hall
  have hlive : ∀ i, a ∈ (m.entries (.list i)).map Prod.fst →
      a ∈ m.live.map Prod.fst ∧ a % SUB_HASH_SIZE = i := by
    intro i hi
    obtain ⟨e, he, rfl⟩ := List.mem_map.1 hi
    obtain ⟨hmem, hmod⟩ := List.mem_filter.1 he
    exact ⟨List.mem_map_of_mem hmem, by simpa using hmod⟩
  cases h with
  | list i =>
      cases h' with
      | list j => rw [← (hlive i ha).2, ← (hlive j ha').2]
      | done => exact absurd ha' (List.disjoint_of_nodup_append hall (hlive i ha).1)
  | done =>
      cases h' with
      | list j => exact absurd ha (List.disjoint_of_nodup_append hall (hlive j ha').1)
      | done => rfl

def register (m : SubMap H) (subh : H) : SubMap H where
  serial := m.serial + 1
  live := m.live ++ [(m.serial, subh)]
  done := m.done
  ordered := by
    rw [List.map_append, List.pairwise_append]
    refine ⟨m.ordered, List.pairwise_singleton _ _, ?_⟩
    intro a ha b hb
    obtain ⟨e, he, rfl⟩ := List.mem_map.1 ha
    rw [List.mem_singleton.1 hb]
    exact mem_lt (List.mem_append_left _ he)
  once := by
    rw [List.range_succ, List.append_assoc]
    refine List.Perm.trans ?_ (m.once.append_right [m.serial])
    rw [← List.map_singleton (f := Prod.fst) (a := (m.serial, subh)), ← List.map_append]
    refine List.Perm.map _ ?_
    rw [List.append_assoc]
    exact List.perm_append_comm.append_left m.live

def move (m : SubMap H) (subId : Nat) : SubMap H where
  serial := m.serial
  live := m.live.filter fun e => e.1 ≠ subId
  done := m.live.filter (fun e => e.1 = subId) ++ m.done
  ordered := by
    refine List.Pairwise.sublist ?_ m.ordered
    exact List.filter_sublist.map _
  once := by
    refine (List.Perm.map _ ?_).trans m.once
    rw [← List.append_assoc]
    refine List.Perm.append_right _ ?_
    apply List.perm_append_comm.trans
    simpa using List.filter_append_perm (fun e : Nat × H => decide (e.1 = subId)) m.live

theorem entries_register (m : SubMap H) (subh : H) (h : SubHead) :
    (m.register subh).entries h =
      m.entries h ++ if h = .list (m.serial % SUB_HASH_SIZE) then [(m.serial, subh)] else [] := by
  cases h with
  | list i =>
      rw [entries, register, List.filter_append]
      refine congrArg (m.entries (.list i) ++ ·) ?_
      by_cases hi : m.serial % SUB_HASH_SIZE = i
      · simp [hi]
      · simp [hi, Ne.symm hi]
  | done => exact (List.append_nil _).symm

theorem mem_ids_list {m : SubMap H} {subId : Nat} :
    subId ∈ (m.entries (.list (subId % SUB_HASH_SIZE))).map Prod.fst ↔ subId ∈ m.live.map Prod.fst := by
  constructor
  · intro h
    obtain ⟨e, he, rfl⟩ := List.mem_map.1 h
    exact List.mem_map_of_mem (List.mem_filter.1 he).1
  · intro h
    obtain ⟨e, he, rfl⟩ := List.mem_map.1 h
    exact List.mem_map_of_mem (List.mem_filter.2 ⟨he, by simp⟩)

theorem ids_move_list (m : SubMap H) (subId i : Nat) :
    ((m.move subId).entries (.list i)).map Prod.fst =
      ((m.entries (.list i)).map Prod.fst).filter fun a => a ≠ subId := by
  rw [List.filter_map, entries, entries, move, List.filter_filter, List.filter_filter]
  refine congrArg (List.map Prod.fst) (List.filter_congr fun e _ => ?_)
  rw [Bool.and_comm]
  rfl

theorem ids_move_done {m : SubMap H} {subId : Nat} (hmem : subId ∈ m.live.map Prod.fst) :
    ((m.move subId).entries .done).map Prod.fst = subId :: m.done.map Prod.fst := by
  have hnodup : (m.live.map Prod.fst).Nodup := m.ordered.imp Nat.ne_of_lt
  have hone : (m.live.map Prod.fst).filter (fun a => decide (a = subId)) = [subId] := by
    have hcount := List.count_eq_one_of_mem hnodup hmem
    have hfilter := List.filter_eq (l := m.live.map Prod.fst) subId
    rw [hcount] at hfilter
    simpa [eq_comm] using hfilter
  rw [List.filter_map] at hone
  rw [entries, move, List.map_append]
  exact congrArg (· ++ m.done.map Prod.fst) hone

theorem move_eq_self {m : SubMap H} {subId : Nat} (hmem : subId ∉ m.live.map Prod.fst) :
    m.move subId = m := by
  have hne : ∀ e ∈ m.live, e.1 ≠ subId := by
    rintro e he rfl
    exact hmem (List.mem_map_of_mem he)
  have hlive : m.live.filter (fun e => decide (e.1 ≠ subId)) = m.live :=
    List.filter_eq_self.2 fun e he => by simpa using hne e he
  have hmoved : m.live.filter (fun e => decide (e.1 = subId)) = [] :=
    List.filter_eq_nil_iff.2 fun e he => by simpa using hne e he
  cases m
  simp only [move, mk.injEq, true_and]
  exact ⟨hlive, by rw [hmoved, List.nil_append]⟩

def step (m : SubMap H) : SubCall H → SubMap H
  | .register subh => m.register subh
  | .move subId => m.move subId

/-- What the calls make of the map. -/
def after (calls : List (SubCall H)) : SubMap H :=
  calls.foldl step empty

end SubMap

namespace SubTable

/-! ## The property -/

def links (st : SubTable H) (h : SubHead) (p : Option Nat) : Option Nat :=
  (st.read h p).join

/-- What is stored in a node, without the link. -/
def entry (st : SubTable H) (r : Nat) : Option (Nat × H) :=
  (st.node r).map fun node => (node.id, node.subh)

/-- The lists hold what the map says, in this order, and the node of a handle has the number of its id. -/
structure Placed (st : SubTable H) (m : SubMap H) : Prop where
  fresh : st.fresh = m.serial
  serial : st.subSerial = m.serial
  chain : ∀ h, Links.Chain (st.links h) none ((m.entries h).map Prod.fst)
  entry : ∀ e ∈ m.live ++ m.done, st.entry e.1 = some e

/-- The table is a map for the id: `dspaces_get_sub` ends and returns what the map holds, and
`dspaces_move_sub` takes this handle out, puts it before the others of `done_list` and keeps all else. -/
structure MapLaw (st : SubTable H) (m : SubMap H) (subId : Nat) : Prop where
  get : ∃ fuel, st.getSub fuel subId = some (m.held subId)
  move : ∃ st', st.moveSub subId = some st' ∧ st'.Placed (m.move subId)

end SubTable

/-- No handle of the list of `subId` was registered before `subId` and not moved, and none later if
`subId` is not held. -/
def SubMap.First (m : SubMap H) (subId : Nat) : Prop :=
  ∀ e ∈ m.live, e.1 % SUB_HASH_SIZE = subId % SUB_HASH_SIZE → (m.held subId).isSome ∧ subId ≤ e.1

namespace SubTable

/-! ## Places -/

/-- The place is in memory. -/
def HasPlace (st : SubTable H) (p : Option Nat) : Prop :=
  ∀ a, p = some a → (st.node a).isSome

section Places

variable {st : SubTable H} {h : SubHead} {p : Option Nat}

theorem hasPlace_none : st.HasPlace none := fun _ hp => nomatch hp

theorem hasPlace_some {r : Nat} (hr : (st.node r).isSome) : st.HasPlace (some r) := by
  intro a ha
  cases ha
  exact hr

theorem hasPlace_tip {l : List Nat} (hl : ∀ a ∈ l, (st.node a).isSome) :
    st.HasPlace (Links.tip none l) := by
  intro a ha
  rw [Links.tip_none] at ha
  exact hl a (List.mem_of_getLast? ha)

theorem read_eq (hp : st.HasPlace p) : st.read h p = some (st.links h p) := by
  cases p with
  | none => rfl
  | some a =>
      obtain ⟨node, hnode⟩ := Option.isSome_iff_exists.1 (hp a rfl)
      simp [links, read, hnode]

theorem links_some {r : Nat} {node : SubNode H} (hr : st.node r = some node) :
    st.links h (some r) = node.next := by
  simp [links, read, hr]

theorem node_isSome {r : Nat} : (st.node r).isSome = (st.entry r).isSome := by
  rw [entry, Option.isSome_map]

end Places

section Updates

variable (st : SubTable H)

theorem links_setNode (r : Nat) (node : SubNode H) (h : SubHead) :
    (st.setNode r node).links h = Function.update (st.links h) (some r) node.next := by
  funext p
  cases p with
  | none => simp [links, read, setNode]
  | some a =>
      rcases eq_or_ne a r with rfl | hne
      · simp [links, read, setNode]
      · simp [links, read, setNode, hne]

theorem entry_setNode (r : Nat) (node : SubNode H) :
    (st.setNode r node).entry = Function.update st.entry r (some (node.id, node.subh)) := by
  funext a
  rcases eq_or_ne a r with rfl | hne
  · simp [entry, setNode]
  · simp [entry, setNode, hne]

theorem links_setHead (h : SubHead) (v : Option Nat) :
    (st.setHead h v).links h = Function.update (st.links h) none v := by
  funext p
  cases p with
  | none => simp [links, read, setHead]
  | some a => simp [links, read, setHead]

theorem links_setHead_of_ne {h h' : SubHead} (hne : h' ≠ h) (v : Option Nat) :
    (st.setHead h v).links h' = st.links h' := by
  funext p
  cases p with
  | none => simp [links, read, setHead, hne]
  | some a => rfl

end Updates

/-- The state after a link of list `h` was changed. -/
structure Rewired (st st' : SubTable H) (h : SubHead) (p v : Option Nat) : Prop where
  links : st'.links h = Function.update (st.links h) p v
  /-- the other lists keep their links, except the one in the node itself -/
  others : ∀ h' ≠ h, ∀ q, (∀ a, q = some a → p ≠ some a) → st'.links h' q = st.links h' q
  entry : st'.entry = st.entry
  fresh : st'.fresh = st.fresh
  serial : st'.subSerial = st.subSerial

theorem write_spec {st : SubTable H} {p : Option Nat} (hp : st.HasPlace p) (h : SubHead)
    (v : Option Nat) : ∃ st', st.write h v p = some st' ∧ st.Rewired st' h p v := by
  cases p with
  | none =>
      refine ⟨st.setHead h v, rfl, links_setHead st h v, fun h' hne q _ => ?_, rfl, rfl, rfl⟩
      rw [links_setHead_of_ne st hne]
  | some a =>
      obtain ⟨node, hnode⟩ := Option.isSome_iff_exists.1 (hp a rfl)
      refine ⟨st.setNode a { node with next := v }, by rw [write, hnode]; rfl,
        links_setNode st a _ h, fun h' _ q hq => ?_, ?_, rfl, rfl⟩
      · rw [links_setNode]
        refine Function.update_of_ne ?_ _ _
        rintro rfl
        exact hq a rfl rfl
      · rw [entry_setNode, Function.update_eq_self_iff, entry, hnode]
        rfl

/-! ## The walks -/

section Walks

variable {st : SubTable H} {h : SubHead} {subId : Nat}

/-- The walk of `register_client_sub` comes to the end of the list. -/
theorem findEnd_eq {l : List Nat} : ∀ {p fuel}, st.HasPlace p → Links.Path (st.links h) p l →
    st.links h (Links.tip p l) = none → (∀ a ∈ l, (st.node a).isSome) → l.length < fuel →
    st.findEnd h fuel p = some (Links.tip p l) := by
  induction l with
  | nil =>
      intro p fuel hp _ hend _ hfuel
      obtain ⟨fuel, rfl⟩ := Nat.exists_eq_succ_of_ne_zero (Nat.ne_of_gt hfuel)
      rw [Links.tip_nil] at hend
      simp [findEnd, read_eq hp, hend]
  | cons a l ih =>
      intro p fuel hp hpath hend hl hfuel
      obtain ⟨fuel, rfl⟩ := Nat.exists_eq_succ_of_ne_zero (Nat.ne_zero_of_lt hfuel)
      have ha : st.HasPlace (some a) := hasPlace_some (hl a (by simp))
      have hrest := ih ha hpath.2 hend (fun b hb => hl b (by simp [hb])) (Nat.lt_of_succ_lt_succ hfuel)
      simpa [findEnd, read_eq hp, hpath.1] using hrest

/-- The walk of `dspaces_move_sub` comes to the node with the id, or to the end of the list. -/
theorem findSub_eq {l : List Nat} : ∀ {p fuel}, st.HasPlace p → Links.Path (st.links h) p l →
    (∀ r, st.links h (Links.tip p l) = some r → ∃ node, st.node r = some node ∧ node.id = subId) →
    (∀ a ∈ l, ∃ node, st.node a = some node ∧ node.id ≠ subId) → l.length < fuel →
    st.findSub h subId fuel p = some (Links.tip p l) := by
  induction l with
  | nil =>
      intro p fuel hp _ hstop _ hfuel
      obtain ⟨fuel, rfl⟩ := Nat.exists_eq_succ_of_ne_zero (Nat.ne_of_gt hfuel)
      rw [Links.tip_nil] at hstop
      cases hlink : st.links h p with
      | none => simp [findSub, read_eq hp, hlink]
      | some r =>
          obtain ⟨node, hnode, hid⟩ := hstop r hlink
          simp [findSub, read_eq hp, hlink, hnode, hid]
  | cons a l ih =>
      intro p fuel hp hpath hstop hl hfuel
      obtain ⟨fuel, rfl⟩ := Nat.exists_eq_succ_of_ne_zero (Nat.ne_zero_of_lt hfuel)
      obtain ⟨node, hnode, hid⟩ := hl a (by simp)
      have ha : st.HasPlace (some a) := hasPlace_some (by rw [hnode]; rfl)
      have hrest := ih ha hpath.2 hstop (fun b hb => hl b (by simp [hb])) (Nat.lt_of_succ_lt_succ hfuel)
      simpa [findSub, read_eq hp, hpath.1, hnode, hid] using hrest

/-- At a node with another id the loop of `dspaces_get_sub` does not end. -/
theorem getLoop_stuck {r : Nat} {node : SubNode H} (hr : st.node r = some node) (hid : node.id ≠ subId)
    (fuel : Nat) : st.getLoop subId fuel (some r) = none := by
  induction fuel with
  | zero => rfl
  | succ fuel ih => simpa [getLoop, hr, hid] using ih

theorem getLoop_found {r : Nat} {node : SubNode H} (hr : st.node r = some node) (hid : node.id = subId)
    (fuel : Nat) : st.getLoop subId (fuel + 1) (some r) = some (some node.subh) := by
  simp [getLoop, hr, hid]

end Walks

/-! ## What holds in every state -/

section Placed

variable {st : SubTable H} {m : SubMap H}

theorem placed_init : (init : SubTable H).Placed SubMap.empty where
  fresh := rfl
  serial := rfl
  chain h := by
    cases h with
    | list i => exact rfl
    | done => exact rfl
  entry e he := nomatch he

theorem Placed.entry_of_mem (hst : st.Placed m) {h : SubHead} {e : Nat × H} (he : e ∈ m.entries h) :
    st.entry e.1 = some e := by
  refine hst.entry e (List.mem_append.2 ?_)
  cases h with
  | list i => exact Or.inl (List.mem_filter.1 he).1
  | done => exact Or.inr he

theorem Placed.entry_of_mem_map (hst : st.Placed m) {h : SubHead} {a : Nat}
    (ha : a ∈ (m.entries h).map Prod.fst) : ∃ subh, st.entry a = some (a, subh) := by
  obtain ⟨e, he, rfl⟩ := List.mem_map.1 ha
  exact ⟨e.2, hst.entry_of_mem he⟩

theorem Placed.node_isSome (hst : st.Placed m) {h : SubHead} {a : Nat}
    (ha : a ∈ (m.entries h).map Prod.fst) : (st.node a).isSome := by
  obtain ⟨subh, hentry⟩ := hst.entry_of_mem_map ha
  rw [SubTable.node_isSome, hentry]
  rfl

theorem Placed.length_lt (hst : st.Placed m) (h : SubHead) :
    ((m.entries h).map Prod.fst).length < st.fresh + 1 := by
  have hsub : (m.entries h).length ≤ (m.live ++ m.done).length := by
    cases h with
    | list i => exact (List.length_filter_le _ _).trans (by simp)
    | done => exact (by simp [SubMap.entries])
  have hall := m.once.length_eq
  rw [List.length_map, List.length_range] at hall
  rw [List.length_map, hst.fresh]
  exact Nat.lt_succ_of_le (hsub.trans_eq hall)

/-- A handle that is registered is put at the end of its list. -/
theorem Placed.sub (hst : st.Placed m) (subh : H) :
    ∃ st', st.sub subh = some st' ∧ st'.Placed (m.register subh) := by
  let h : SubHead := .list (m.serial % SUB_HASH_SIZE)
  let l := (m.entries h).map Prod.fst
  let st₁ : SubTable H :=
    { st.setNode m.serial ⟨none, subh, m.serial⟩ with fresh := m.serial + 1, subSerial := m.serial + 1 }
  have hnew : ∀ h', m.serial ∉ (m.entries h').map Prod.fst := by
    intro h' hmem
    obtain ⟨e, he, hserial⟩ := List.mem_map.1 hmem
    refine absurd (SubMap.mem_lt (m := m) (e := e) ?_) (by rw [hserial]; exact Nat.lt_irrefl _)
    cases h' with
    | list i => exact List.mem_append_left _ (List.mem_filter.1 he).1
    | done => exact List.mem_append_right _ he
  have hlinks₁ : ∀ h', st₁.links h' = Function.update (st.links h') (some m.serial) none := fun h' =>
    links_setNode st m.serial ⟨none, subh, m.serial⟩ h'
  have hentry₁ : st₁.entry = Function.update st.entry m.serial (some (m.serial, subh)) :=
    entry_setNode st m.serial ⟨none, subh, m.serial⟩
  have hchain₁ : ∀ h', Links.Chain (st₁.links h') none ((m.entries h').map Prod.fst) := by
    intro h'
    rw [hlinks₁ h']
    refine (hst.chain h').congr rfl fun a ha => ?_
    refine (Function.update_of_ne ?_ _ _).symm
    intro heq
    exact hnew h' (Option.some.inj heq ▸ ha)
  have hplace : st₁.HasPlace (Links.tip none l) := by
    refine hasPlace_tip fun a ha => ?_
    have hne : a ≠ m.serial := fun heq => hnew h (heq ▸ ha)
    rw [SubTable.node_isSome, hentry₁, Function.update_of_ne hne, ← SubTable.node_isSome]
    exact hst.node_isSome ha
  obtain ⟨st₂, hwrite, hst₂⟩ := write_spec hplace h (some m.serial)
  refine ⟨st₂, ?_, hst₂.fresh, hst₂.serial, fun h' => ?_, fun e he => ?_⟩
  · have hpath := (Links.chain_append l [] none).1 (by rw [List.append_nil]; exact hst.chain h)
    rw [SubTable.sub, registerClientSub, hst.serial]
    refine Option.bind_eq_some_iff.2 ⟨Links.tip none l, ?_, ?_⟩
    · refine findEnd_eq hasPlace_none hpath.1 hpath.2 (fun a ha => ?_) (hst.length_lt h)
      exact hst.node_isSome ha
    · rw [hst.fresh]
      exact hwrite
  · rw [SubMap.entries_register]
    by_cases hh : h' = h
    · rw [if_pos hh, hh, List.map_append, hst₂.links, Links.tip_none]
      refine (hchain₁ h).snoc (m.nodup_entries h) (hnew h) ?_
      rw [hlinks₁, Function.update_self]
    · rw [if_neg hh, List.append_nil]
      refine (hchain₁ h').congr (hst₂.others h' hh none (fun _ ha => nomatch ha)).symm fun a ha => ?_
      refine (hst₂.others h' hh (some a) fun b hb htip => ?_).symm
      -- the last node of the list is in no other one
      cases hb
      rw [Links.tip_none] at htip
      exact hh (SubMap.entries_disjoint ha (List.mem_of_getLast? htip))
  · rw [hst₂.entry, hentry₁]
    have hcases : e = (m.serial, subh) ∨ e ∈ m.live ++ m.done := by
      simp only [SubMap.register, List.mem_append, List.mem_singleton] at he
      simp only [List.mem_append]
      tauto
    rcases hcases with rfl | he
    · exact Function.update_self _ _ _
    · rw [Function.update_of_ne (Nat.ne_of_lt (SubMap.mem_lt he))]
      exact hst.entry e he

/-- What `dspaces_move_sub` makes of the links when it finds the node `r` at place `p` of list `i`. -/
structure Relinked (st st' : SubTable H) (i : Nat) (p : Option Nat) (r : Nat) : Prop where
  list : ∀ a, a ≠ some r → st'.links (.list i) a =
    Function.update (st.links (.list i)) p (st.links (.list i) (some r)) a
  others : ∀ j ≠ i, ∀ q, (∀ a, q = some a → p ≠ some a ∧ r ≠ a) →
    st'.links (.list j) q = st.links (.list j) q
  first : st'.links .done none = some r
  second : st'.links .done (some r) = st.links .done none
  done : ∀ a, p ≠ some a → a ≠ r → st'.links .done (some a) = st.links .done (some a)
  entry : st'.entry = st.entry
  fresh : st'.fresh = st.fresh
  serial : st'.subSerial = st.subSerial

theorem relink_spec {p : Option Nat} {r i : Nat} {node : SubNode H} (hp : st.HasPlace p)
    (hr : st.node r = some node) :
    ∃ st₁, st.write (.list i) node.next p = some st₁ ∧
      st.Relinked ((st₁.setNode r { node with next := st₁.head .done }).setHead .done (some r)) i p r := by
  obtain ⟨st₁, hwrite, hst₁⟩ := write_spec hp (.list i) node.next
  refine ⟨st₁, hwrite, ?_⟩
  have hhead : st₁.head .done = st.links .done none :=
    hst₁.others .done (by simp) none (fun _ ha => nomatch ha)
  have hlist : ∀ j q, q ≠ some r →
      ((st₁.setNode r { node with next := st₁.head .done }).setHead .done (some r)).links (.list j) q =
        st₁.links (.list j) q := by
    intro j q hq
    rw [links_setHead_of_ne _ (by simp), links_setNode, Function.update_of_ne hq]
  refine ⟨fun a ha => ?_, fun j hj q hq => ?_, ?_, ?_, fun a hpa ha => ?_, ?_, hst₁.fresh, hst₁.serial⟩
  · rw [hlist i a ha, hst₁.links, links_some hr]
  · have hqr : q ≠ some r := fun heq => (hq r heq).2 rfl
    rw [hlist j q hqr]
    exact hst₁.others (.list j) (by simpa using hj) q fun a ha => (hq a ha).1
  · rw [links_setHead, Function.update_self]
  · rw [links_setHead, Function.update_of_ne (by simp), links_setNode, Function.update_self]
    exact hhead
  · rw [links_setHead, Function.update_of_ne (by simp), links_setNode,
      Function.update_of_ne (by simpa using ha)]
    refine hst₁.others .done (by simp) (some a) fun b hb => ?_
    cases hb
    exact hpa
  · have hkeep : (st₁.setNode r { node with next := st₁.head .done }).entry = st.entry := by
      rw [entry_setNode, hst₁.entry, Function.update_eq_self_iff, SubTable.entry, hr]
      rfl
    exact hkeep

/-- Taking a node out of its list and putting it before the others of `done_list` is what the map does. -/
theorem Placed.relinked (hst : st.Placed m) {st' : SubTable H} {r : Nat} {l₁ l₂ : List Nat}
    (hl : (m.entries (.list (r % SUB_HASH_SIZE))).map Prod.fst = l₁ ++ r :: l₂)
    (hst' : st.Relinked st' (r % SUB_HASH_SIZE) (Links.tip none l₁) r) : st'.Placed (m.move r) := by
  have hnodup : (l₁ ++ r :: l₂).Nodup := hl ▸ m.nodup_entries (.list (r % SUB_HASH_SIZE))
  have hr : r ∈ (m.entries (.list (r % SUB_HASH_SIZE))).map Prod.fst := by simp [hl]
  have hnot : r ∉ l₁ ++ l₂ := (List.nodup_middle.1 hnodup).notMem
  -- the node before `r` and `r` are in no other list
  have hother : ∀ h', h' ≠ .list (r % SUB_HASH_SIZE) → ∀ a ∈ (m.entries h').map Prod.fst,
      Links.tip none l₁ ≠ some a ∧ r ≠ a := by
    intro h' hne a ha
    refine ⟨fun htip => hne (SubMap.entries_disjoint ha ?_), ?_⟩
    · rw [Links.tip_none] at htip
      rw [hl]
      exact List.mem_append_left _ (List.mem_of_getLast? htip)
    · rintro rfl
      exact hne (SubMap.entries_disjoint ha hr)
  refine ⟨hst'.fresh.trans hst.fresh, hst'.serial.trans hst.serial, fun h' => ?_, fun e he => ?_⟩
  · cases h' with
    | list i =>
        rw [SubMap.ids_move_list]
        rcases eq_or_ne i (r % SUB_HASH_SIZE) with rfl | hne
        · have hfilter : (l₁ ++ r :: l₂).filter (fun a => decide (a ≠ r)) = l₁ ++ l₂ := by
            have hkeep : ∀ a ∈ l₁ ++ l₂, decide (a ≠ r) = true := by
              intro a ha
              exact decide_eq_true fun heq => hnot (heq ▸ ha)
            rw [List.filter_append, List.filter_cons_of_neg (by simp), ← List.filter_append,
              List.filter_eq_self.2 hkeep]
          have hunlink := (hl ▸ hst.chain (.list (r % SUB_HASH_SIZE))).unlink hnodup
          rw [hl, hfilter]
          rw [← Links.tip_none] at hunlink
          refine hunlink.congr (hst'.list none (by simp)).symm fun a ha => (hst'.list (some a) ?_).symm
          intro heq
          exact hnot (Option.some.inj heq ▸ ha)
        · have hlist : SubHead.list i ≠ .list (r % SUB_HASH_SIZE) := fun heq => hne (SubHead.list.inj heq)
          have hkeep : ((m.entries (.list i)).map Prod.fst).filter (fun a => decide (a ≠ r)) =
              (m.entries (.list i)).map Prod.fst :=
            List.filter_eq_self.2 fun a ha => decide_eq_true (hother _ hlist a ha).2.symm
          rw [hkeep]
          refine (hst.chain (.list i)).congr (hst'.others i hne none fun _ ha => nomatch ha).symm
            fun a ha => (hst'.others i hne (some a) ?_).symm
          rintro b hb
          cases hb
          exact hother _ hlist a ha
    | done =>
        rw [SubMap.ids_move_done (SubMap.mem_ids_list.1 hr)]
        refine ⟨hst'.first, (hst.chain .done).transfer hst'.second.symm fun a ha => ?_⟩
        obtain ⟨htip, hne⟩ := hother .done (by simp) a ha
        exact (hst'.done a htip hne.symm).symm
  · rw [hst'.entry]
    refine hst.entry e ?_
    simp only [SubMap.move, List.mem_append, List.mem_filter] at he
    rw [List.mem_append]
    tauto

/-- Every handle of a list is a node with that number. -/
theorem Placed.node_of_mem (hst : st.Placed m) {h : SubHead} {a : Nat}
    (ha : a ∈ (m.entries h).map Prod.fst) : ∃ node, st.node a = some node ∧ node.id = a := by
  obtain ⟨subh, hentry⟩ := hst.entry_of_mem_map ha
  obtain ⟨node, hnode, heq⟩ := Option.map_eq_some_iff.1 hentry
  exact ⟨node, hnode, congrArg Prod.fst heq⟩

/-- A handle of a list is taken out of it and put at the beginning of `done_list`. -/
theorem Placed.moveSub_of_mem (hst : st.Placed m) {subId : Nat}
    (hmem : subId ∈ (m.entries (.list (subId % SUB_HASH_SIZE))).map Prod.fst) :
    ∃ st', st.moveSub subId = some st' ∧ st'.Placed (m.move subId) := by
  let h : SubHead := .list (subId % SUB_HASH_SIZE)
  obtain ⟨l₁, l₂, hl⟩ : ∃ l₁ l₂, (m.entries h).map Prod.fst = l₁ ++ subId :: l₂ := List.append_of_mem hmem
  have hnodup : (l₁ ++ subId :: l₂).Nodup := by
    rw [← hl]
    exact m.nodup_entries h
  have hchain : Links.Chain (st.links h) none (l₁ ++ subId :: l₂) := by
    rw [← hl]
    exact hst.chain h
  obtain ⟨hpath, hlink, -⟩ := (Links.chain_append l₁ (subId :: l₂) none).1 hchain
  have hbefore : ∀ a ∈ l₁, a ∈ (m.entries h).map Prod.fst := fun a ha => hl ▸ List.mem_append_left _ ha
  have hplace : st.HasPlace (Links.tip none l₁) :=
    hasPlace_tip fun a ha => hst.node_isSome (hbefore a ha)
  obtain ⟨node, hr, hid⟩ := hst.node_of_mem hmem
  obtain ⟨st₁, hwrite, hst₁⟩ := relink_spec (i := subId % SUB_HASH_SIZE) hplace hr
  refine ⟨_, ?_, hst.relinked hl hst₁⟩
  have hlength : l₁.length < st.fresh + 1 := by
    refine lt_of_le_of_lt ?_ (hst.length_lt h)
    rw [hl]
    simp
  have hwalk : st.findSub h subId (st.fresh + 1) none = some (Links.tip none l₁) := by
    refine findSub_eq hasPlace_none hpath (fun r hr' => ?_) (fun a ha => ?_) hlength
    · obtain rfl : subId = r := Option.some.inj (hlink.symm.trans hr')
      exact ⟨node, hr, hid⟩
    · obtain ⟨node', hnode', hid'⟩ := hst.node_of_mem (hbefore a ha)
      refine ⟨node', hnode', fun heq => ?_⟩
      rw [← heq, hid'] at hnodup
      exact (List.nodup_middle.1 hnodup).notMem (List.mem_append_left _ ha)
  refine Option.bind_eq_some_iff.2 ⟨Links.tip none l₁, hwalk, ?_⟩
  refine Option.bind_eq_some_iff.2 ⟨some subId, (read_eq hplace).trans (congrArg some hlink), ?_⟩
  refine Option.bind_eq_some_iff.2 ⟨node, hr, ?_⟩
  exact Option.bind_eq_some_iff.2 ⟨st₁, hwrite, rfl⟩

/-- Without the handle the walk comes to the end of the list, and nothing is moved. -/
theorem moveSub_of_notMem (hst : st.Placed m) {subId : Nat}
    (hmem : subId ∉ (m.entries (.list (subId % SUB_HASH_SIZE))).map Prod.fst) :
    st.moveSub subId = some st := by
  let h : SubHead := .list (subId % SUB_HASH_SIZE)
  let l := (m.entries h).map Prod.fst
  have hpath := (Links.chain_append l [] none).1 (by rw [List.append_nil]; exact hst.chain h)
  have hend : st.links h (Links.tip none l) = none := hpath.2
  have hplace : st.HasPlace (Links.tip none l) := hasPlace_tip fun a ha => hst.node_isSome ha
  have hwalk : st.findSub h subId (st.fresh + 1) none = some (Links.tip none l) := by
    refine findSub_eq hasPlace_none hpath.1 (fun r hr => ?_) (fun a ha => ?_) (hst.length_lt h)
    · exact nomatch hend.symm.trans hr
    · obtain ⟨node, hnode, hid⟩ := hst.node_of_mem ha
      refine ⟨node, hnode, fun heq => hmem ?_⟩
      change subId ∈ l
      rw [← heq, hid]
      exact ha
  refine Option.bind_eq_some_iff.2 ⟨Links.tip none l, hwalk, ?_⟩
  exact Option.bind_eq_some_iff.2 ⟨none, (read_eq hplace).trans (congrArg some hend), rfl⟩

theorem Placed.moveSub (hst : st.Placed m) (subId : Nat) :
    ∃ st', st.moveSub subId = some st' ∧ st'.Placed (m.move subId) := by
  by_cases hmem : subId ∈ (m.entries (.list (subId % SUB_HASH_SIZE))).map Prod.fst
  · exact hst.moveSub_of_mem hmem
  · rw [SubMap.move_eq_self (fun hlive => hmem (SubMap.mem_ids_list.2 hlive))]
    exact ⟨st, moveSub_of_notMem hst hmem, hst⟩

theorem Placed.head (hst : st.Placed m) (h : SubHead) :
    st.head h = ((m.entries h).map Prod.fst).head? :=
  (hst.chain h).head

/-- `dspaces_get_sub` ends with what the map holds exactly when the first handle of the list is the one
that is looked for, or there is no handle in the list. -/
theorem Placed.get_iff (hst : st.Placed m) (subId : Nat) :
    (∃ fuel, st.getSub fuel subId = some (m.held subId)) ↔ m.First subId := by
  have hhead := hst.head (.list (subId % SUB_HASH_SIZE))
  have hmem : ∀ e, e ∈ m.entries (.list (subId % SUB_HASH_SIZE)) ↔
      e ∈ m.live ∧ e.1 % SUB_HASH_SIZE = subId % SUB_HASH_SIZE := by
    intro e
    rw [SubMap.entries, List.mem_filter, decide_eq_true_iff]
  have hsorted : (m.entries (.list (subId % SUB_HASH_SIZE))).Pairwise fun e e' => e.1 < e'.1 :=
    (List.pairwise_map.1 m.ordered).sublist List.filter_sublist
  have hfirst : m.First subId ↔ ∀ e ∈ m.entries (.list (subId % SUB_HASH_SIZE)),
      (m.held subId).isSome ∧ subId ≤ e.1 := by
    refine forall_congr' fun e => ?_
    rw [hmem, and_imp]
  rw [hfirst]
  cases hentries : m.entries (.list (subId % SUB_HASH_SIZE)) with
  | nil =>
      rw [hentries] at hhead hmem
      have hheld : m.held subId = none := by
        refine SubMap.held_eq_none fun hlive => ?_
        obtain ⟨e, he, rfl⟩ := List.mem_map.1 hlive
        exact nomatch (hmem e).2 ⟨he, rfl⟩
      refine iff_of_true ⟨1, ?_⟩ (fun e he => nomatch he)
      rw [getSub, hhead, hheld]
      rfl
  | cons e l =>
      have he : e ∈ m.entries (.list (subId % SUB_HASH_SIZE)) := by simp [hentries]
      obtain ⟨node, hnode, hnodeEq⟩ := Option.map_eq_some_iff.1 (hst.entry_of_mem he)
      have hid : node.id = e.1 := congrArg Prod.fst hnodeEq
      have hsubh : node.subh = e.2 := congrArg Prod.snd hnodeEq
      rw [hentries] at hhead hsorted
      have hget : ∀ fuel, st.getSub fuel subId = st.getLoop subId fuel (some e.1) := by
        intro fuel
        rw [getSub, hhead]
        rfl
      by_cases heq : e.1 = subId
      · have hheld : m.held subId = some e.2 := by
          rw [← heq]
          exact SubMap.held_of_mem ((hmem e).1 he).1
        refine iff_of_true ⟨1, ?_⟩ fun e' he' => ⟨by rw [hheld]; rfl, ?_⟩
        · rw [hget, getLoop_found hnode (hid.trans heq), hheld, hsubh]
        · rcases List.mem_cons.1 he' with rfl | he'
          · exact heq.ge
          · exact heq ▸ ((List.pairwise_cons.1 hsorted).1 e' he').le
      · refine iff_of_false ?_ fun hall => ?_
        · rintro ⟨fuel, hfuel⟩
          rw [hget, getLoop_stuck hnode (fun h => heq (hid.symm.trans h))] at hfuel
          exact nomatch hfuel
        · obtain ⟨hheld, hle⟩ := hall e (by simp)
          obtain ⟨subh, hsome⟩ := Option.isSome_iff_exists.1 hheld
          -- the handle is in the list, and the first one has the least id
          have hin := (hmem (subId, subh)).2 ⟨SubMap.mem_of_held hsome, rfl⟩
          rw [hentries] at hin
          rcases List.mem_cons.1 hin with rfl | hin
          · exact heq rfl
          · exact absurd ((List.pairwise_cons.1 hsorted).1 _ hin) (Nat.not_lt.2 hle)

theorem Placed.step (hst : st.Placed m) (call : SubCall H) :
    ∃ st', st.step call = some st' ∧ st'.Placed (m.step call) := by
  cases call with
  | register subh => exact hst.sub subh
  | move subId => exact hst.moveSub subId

end Placed

/-- After every sequence of calls the lists hold what the map says. -/
theorem run_placed (calls : List (SubCall H)) :
    ∃ st, run calls init = some st ∧ st.Placed (SubMap.after calls) := by
  have hspec : Runs.IsRun (fun m call => some (SubMap.step (H := H) m call))
      fun calls m => some (calls.foldl SubMap.step m) := ⟨fun _ => rfl, fun _ _ _ => rfl⟩
  refine hspec.simulates isRun (R := fun m st => st.Placed m) (Q := fun _ => True)
    (fun m st call m' hst _ hm' => ?_) calls _ init _ placed_init (fun _ _ => trivial) rfl
  cases hm'
  exact hst.step call

/-- After every sequence of calls all handles are where they have to be, and the table is a map for an id
exactly when no other handle of its list was registered before it. -/
theorem mapLaw_iff (calls : List (SubCall H)) :
    ∃ st, run calls init = some st ∧ st.Placed (SubMap.after calls) ∧
      ∀ subId, st.MapLaw (SubMap.after calls) subId ↔ (SubMap.after calls).First subId := by
  obtain ⟨st, hrun, hst⟩ := run_placed calls
  refine ⟨st, hrun, hst, fun subId => ?_⟩
  rw [← hst.get_iff]
  exact ⟨MapLaw.get, fun hget => ⟨hget, hst.moveSub subId⟩⟩

/-- Of seventeen subscriptions the last one is not found. -/
theorem not_mapLaw_seventeen :
    ∃ st : SubTable Nat, run ((List.range 17).map .register) init = some st ∧
      (SubMap.after ((List.range 17).map SubCall.register)).held 16 = some 16 ∧
      ¬ st.MapLaw (SubMap.after ((List.range 17).map .register)) 16 := by
  obtain ⟨st, hrun, hst⟩ := run_placed ((List.range 17).map (SubCall.register (H := Nat)))
  refine ⟨st, hrun, by decide, fun hlaw => ?_⟩
  have hfirst := (hst.get_iff 16).1 hlaw.get
  exact absurd (hfirst (0, 0) (by decide) (by decide)).2 (by decide)

end SubTable

/-! ## The lists of a client that works on its subscriptions -/

namespace SubClient

/-- What a list of the client holds. -/
def entries (st : SubClient) : SubHead → List Nat
  | .list i => st.subLists i
  | .done => st.doneList

/-- The client is where the map is. -/
structure Shown (st : SubClient) (m : SubMap Nat) : Prop where
  serial : st.subSerial = m.serial
  ids : ∀ h, (m.entries h).map Prod.fst = st.entries h
  handle : ∀ e ∈ m.live ++ m.done, e.2 = e.1

variable {st st' : SubClient} {m : SubMap Nat}

theorem Shown.congr (h : st.Shown m) (hserial : st'.subSerial = st.subSerial)
    (hlists : st'.subLists = st.subLists) (hdone : st'.doneList = st.doneList) : st'.Shown m where
  serial := hserial.trans h.serial
  ids := by
    intro head
    rw [h.ids]
    cases head with
    | list i => exact (congrFun hlists i).symm
    | done => exact hdone.symm
  handle := h.handle

theorem Shown.register (h : st.Shown m) {st₁ : SubClient} (hserial : st₁.subSerial = st.subSerial + 1)
    (hlists : st₁.subLists = st.subLists) (hdone : st₁.doneList = st.doneList) :
    (st₁.registerClientSub st.subSerial).Shown (m.register m.serial) where
  serial := hserial.trans (congrArg (· + 1) h.serial)
  ids := by
    intro head
    rw [SubMap.entries_register, List.map_append, h.ids, h.serial]
    cases head with
    | list i =>
        rcases eq_or_ne i (m.serial % SUB_HASH_SIZE) with rfl | hne
        · simp [entries, registerClientSub, hlists]
        · simp [entries, registerClientSub, hlists, hne]
    | done => simp [entries, registerClientSub, hdone]
  handle := by
    intro e he
    simp only [SubMap.register, List.append_assoc, List.mem_append, List.mem_singleton] at he
    rcases he with he | rfl | he
    · exact h.handle e (List.mem_append_left _ he)
    · rfl
    · exact h.handle e (List.mem_append_right _ he)

/-- `dspaces_move_sub` takes the subscription out of its list, in which it is once. -/
theorem Shown.move (h : st.Shown m) (id : Nat) : (st.dspacesMoveSub id).Shown (m.move id) := by
  have hids := h.ids (.list (id % SUB_HASH_SIZE))
  by_cases hmem : id ∈ m.live.map Prod.fst
  · have hin : id ∈ st.subLists (id % SUB_HASH_SIZE) := by
      change id ∈ st.entries (.list (id % SUB_HASH_SIZE))
      rw [← hids]
      exact SubMap.mem_ids_list.2 hmem
    rw [dspacesMoveSub, if_pos hin]
    refine ⟨h.serial, fun head => ?_, fun e he => h.handle e ?_⟩
    · cases head with
      | list i =>
          rw [SubMap.ids_move_list, h.ids]
          have hnodup : (st.subLists i).Nodup := by
            have hnodup := m.nodup_entries (.list i)
            rwa [h.ids] at hnodup
          rcases eq_or_ne i (id % SUB_HASH_SIZE) with rfl | hne
          · simp only [entries, Function.update_self, hnodup.erase_eq_filter]
            exact List.filter_congr fun a _ => decide_not.trans (congrArg not (beq_eq_decide a id).symm)
          · simp only [entries, Function.update_of_ne hne]
            refine List.filter_eq_self.2 fun a ha => decide_eq_true ?_
            rintro rfl
            -- the subscription is in no other list
            have ha' : a ∈ (m.entries (.list i)).map Prod.fst := by
              rw [h.ids]
              exact ha
            exact hne (SubHead.list.inj (SubMap.entries_disjoint ha' (SubMap.mem_ids_list.2 hmem)))
      | done =>
          rw [SubMap.ids_move_done hmem]
          exact congrArg (id :: ·) (h.ids .done)
    · simp only [SubMap.move, List.mem_append, List.mem_filter] at he
      rw [List.mem_append]
      tauto
  · have hout : id ∉ st.subLists (id % SUB_HASH_SIZE) := by
      change id ∉ st.entries (.list (id % SUB_HASH_SIZE))
      rw [← hids]
      exact fun hin => hmem (SubMap.mem_ids_list.1 hin)
    rw [dspacesMoveSub, if_neg hout, SubMap.move_eq_self hmem]
    exact h

/-- A step is a call of the table or leaves the lists alone. -/
theorem Shown.step (h : st.Shown m) {e : SubEvent} (hstep : st.Step e st') :
    st'.Shown m ∨ ∃ call, st'.Shown (m.step call) := by
  cases hstep with
  | sub listens outcome hfree =>
      rw [dspacesSub]
      split
      · exact Or.inl h
      -- also a request that cannot be sent has been registered
      · refine Or.inr ⟨.register m.serial, ?_⟩
        let st₁ : SubClient :=
          { st with listenerInit := true, pendingSub := st.pendingSub + 1, subSerial := st.subSerial + 1 }
        have hreg : (st₁.registerClientSub st.subSerial).Shown (m.register m.serial) := h.register rfl rfl rfl
        cases outcome with
        | createFails => exact hreg.congr rfl rfl rfl
        | iforwardFails => exact hreg.congr rfl rfl rfl
        | sent => exact hreg.congr rfl rfl rfl
  | @cancel id hfree hsent =>
      rw [dspacesCancelSub]
      split
      · exact Or.inl (h.congr rfl rfl rfl)
      · exact Or.inl h
  | @look id _ hfree hpc hlook =>
      rcases look_cases hlook with rfl | ⟨-, rfl⟩ | ⟨-, rfl⟩
      · exact Or.inl (h.congr rfl rfl rfl)
      · exact Or.inl (h.congr rfl rfl rfl)
      · exact Or.inl (h.congr rfl rfl rfl)
  | @settle id data hfree hpc =>
      rw [settle]
      split
      · exact Or.inl (h.congr rfl rfl rfl)
      · exact Or.inl (h.congr rfl rfl rfl)
  | @callback id data ret hpc =>
      rw [callback]
      split
      · exact Or.inl (h.congr rfl rfl rfl)
      · exact Or.inl (h.congr rfl rfl rfl)
  | @finish id hfree hpc =>
      have hlists : SubClient.Shown { st with pendingSub := st.pendingSub - 1 } m := h.congr rfl rfl rfl
      exact Or.inr ⟨.move id, (hlists.move id).congr rfl rfl rfl⟩
  | @readStatus t id ht =>
      rw [readStatus]
      split
      · exact Or.inl (h.congr rfl rfl rfl)
      · exact Or.inl (h.congr rfl rfl rfl)
  | _ => exact Or.inl (h.congr rfl rfl rfl)

end SubClient

namespace SubTable

/-- The linked lists are those of the client, and `dspaces_get_sub` comes to what it does there. -/
structure Holds (table : SubTable Nat) (st : SubClient) : Prop where
  serial : table.subSerial = st.subSerial
  chain : ∀ h, Links.Chain (table.links h) none (st.entries h)
  get : ∀ id, match st.dspacesGetSub id with
    | .found => ∃ fuel, table.getSub fuel id = some (some id)
    | .null => ∃ fuel, table.getSub fuel id = some none
    | .loops => ∀ fuel, table.getSub fuel id = none

theorem Placed.holds {table : SubTable Nat} {st : SubClient} {m : SubMap Nat} (ht : table.Placed m)
    (h : st.Shown m) : table.Holds st where
  serial := ht.serial.trans h.serial.symm
  chain head := h.ids head ▸ ht.chain head
  get := by
    intro id
    have hhead : table.head (.list (id % SUB_HASH_SIZE)) = (st.subLists (id % SUB_HASH_SIZE)).head? := by
      rw [ht.head, h.ids]
      rfl
    rw [SubClient.dspacesGetSub]
    cases hlist : st.subLists (id % SUB_HASH_SIZE) with
    | nil =>
        rw [hlist] at hhead
        exact ⟨1, by rw [getSub, hhead]; rfl⟩
    | cons first rest =>
        rw [hlist] at hhead
        have hmem : first ∈ (m.entries (.list (id % SUB_HASH_SIZE))).map Prod.fst := by
          rw [h.ids]
          change first ∈ st.subLists (id % SUB_HASH_SIZE)
          rw [hlist]
          exact List.mem_cons_self
        obtain ⟨e, he, rfl⟩ := List.mem_map.1 hmem
        obtain ⟨node, hnode, hentry⟩ := Option.map_eq_some_iff.1 (ht.entry_of_mem he)
        have hid : node.id = e.1 := congrArg Prod.fst hentry
        have hsubh : node.subh = e.2 := congrArg Prod.snd hentry
        have hget : ∀ fuel, table.getSub fuel id = table.getLoop id fuel (some e.1) := by
          intro fuel
          rw [getSub, hhead]
          rfl
        -- the loop stays at the first node
        by_cases heq : e.1 = id
        · simp only [heq, if_true]
          have hhandle : e.2 = id := (h.handle e (List.mem_append_left _ (List.mem_filter.1 he).1)).trans heq
          exact ⟨1, by rw [hget, getLoop_found hnode (hid.trans heq), hsubh, hhandle]⟩
        · simp only [heq, if_false]
          intro fuel
          rw [hget]
          exact getLoop_stuck hnode (fun h => heq (hid.symm.trans h)) fuel

/-- In every run of a client its lists are the linked lists that calls of the table make. -/
theorem holds_run (evs : List SubEvent) {st : SubClient} (hrun : SubClient.run evs SubClient.init = some st) :
    ∃ calls table, run calls init = some table ∧ table.Holds st := by
  have hshown : ∃ calls, st.Shown (SubMap.after calls) := by
    refine (Runs.isRun_foldlM SubClient.step).keeps (P := fun st => ∃ calls, st.Shown (SubMap.after calls))
      ?_ evs SubClient.init st ⟨[], rfl, ?_, fun e he => nomatch he⟩ hrun
    · rintro s e s' ⟨calls, h⟩ hstep
      rcases h.step (SubClient.step_cases hstep) with h' | ⟨call, h'⟩
      · exact ⟨calls, h'⟩
      · exact ⟨calls ++ [call], by rw [SubMap.after, List.foldl_append]; exact h'⟩
    · intro head
      cases head with
      | list i => rfl
      | done => rfl
  obtain ⟨calls, h⟩ := hshown
  obtain ⟨table, htable, hplaced⟩ := run_placed calls
  exact ⟨calls, table, htable, hplaced.holds h⟩

end SubTable

end DataSpaces
