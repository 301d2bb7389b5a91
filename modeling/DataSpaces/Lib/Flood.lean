import Mathlib.Data.Finset.Card
import Mathlib.Data.List.Forall2

/-!
# Flood — broadcasts along a tree

A node that gets a message from `src` passes it on to `fwd v src`, each time naming itself as the source.
When the forwarding rule follows a tree (`IsTree`: every node but the root has one node it gets the
message from, closer to the root), any order of deliveries reaches every node once, and the replies
gathered on the way back come from every node once.
-/

namespace Flood

variable {α : Type*}

/-- Messages on their way and delivered, as pairs of source and destination. -/
structure Net (α : Type*) where
  pending : List (α × α)
  done : List (α × α)

section Rule

variable (fwd : α → α → List α)

/-- The messages that a node sends. -/
def sends (v src : α) : List (α × α) :=
  (fwd v src).map fun w => (v, w)

/-- The network after the first call, which comes from outside. -/
def start (root src : α) : Net α where
  pending := sends fwd root src
  done := []

/-- The delivery of any one message. -/
def deliver (n : Net α) (k : Nat) : Option (Net α) :=
  n.pending[k]?.map fun m =>
    { pending := n.pending.eraseIdx k ++ sends fwd m.2 m.1
      done := n.done ++ [m] }

def deliverAll : List Nat → Net α → Option (Net α)
  | [], n => some n
  | k :: ks, n => (deliver fwd n k).bind (deliverAll ks)

/-- The reply of a node that first passes the message on and combines the replies it gets. -/
def gather {β : Type*} (combine : α → List β → β) : Nat → α → α → Option β
  | 0, _, _ => none
  | fuel + 1, v, src =>
      ((fwd v src).mapM fun w => gather combine fuel w v).map (combine v)

/-- The nodes that handle a call, in the order in which their replies are combined. -/
def handlers : Nat → α → α → Option (List α) :=
  gather fwd fun v ls => v :: ls.flatten

end Rule

/-- Any one of the messages can be thought of as the first one. -/
theorem perm_eraseIdx {l : List α} {k : Nat} {a : α} (h : l[k]? = some a) :
    l.Perm (a :: l.eraseIdx k) := by
  rcases List.getElem?_eq_some_iff.1 h with ⟨hlt, rfl⟩
  exact (List.getElem_cons_eraseIdx_perm hlt).symm

theorem mem_sends_iff {fwd : α → α → List α} {v src : α} {m : α × α} :
    m ∈ sends fwd v src ↔ m.1 = v ∧ m.2 ∈ fwd v src := by
  rw [sends, List.mem_map]
  constructor
  · rintro ⟨w, hw, rfl⟩
    exact ⟨rfl, hw⟩
  · rintro ⟨rfl, hw⟩
    exact ⟨m.2, hw, rfl⟩

variable [DecidableEq α]

/-- Where a node gets the message from. -/
def source (root src : α) (up : α → α) (v : α) : α :=
  if v = root then src else up v

/-- The rule sends the message away from the root, and to every other node from one node only. -/
structure IsTree (fwd : α → α → List α) (nodes : Finset α) (root src : α) (up : α → α)
    (depth : α → Nat) : Prop where
  root_mem : root ∈ nodes
  up_mem : ∀ v ∈ nodes, v ≠ root → up v ∈ nodes
  depth_up : ∀ v ∈ nodes, v ≠ root → depth (up v) < depth v
  nodup : ∀ v ∈ nodes, (fwd v (source root src up v)).Nodup
  mem_fwd : ∀ v ∈ nodes, ∀ w,
    w ∈ fwd v (source root src up v) ↔ w ∈ nodes ∧ w ≠ root ∧ up w = v

namespace IsTree

variable {fwd : α → α → List α} {nodes : Finset α} {root src : α} {up : α → α} {depth : α → Nat}

/-! ## Deliveries -/

/-- Nobody is sent the message twice, and whoever should get it from the root or from a node that was
reached has it or will get it. -/
structure Spreads (nodes : Finset α) (root : α) (up : α → α) (n : Net α) : Prop where
  once : ((n.done ++ n.pending).map Prod.snd).Nodup
  sender : ∀ m ∈ n.done ++ n.pending, m.2 ∈ nodes ∧ m.2 ≠ root ∧ m.1 = up m.2
  reached : ∀ w ∈ nodes, w ≠ root → up w = root ∨ up w ∈ n.done.map Prod.snd →
    w ∈ (n.done ++ n.pending).map Prod.snd
  closed : ∀ m ∈ n.done ++ n.pending, m.1 = root ∨ m.1 ∈ n.done.map Prod.snd

variable (h : IsTree fwd nodes root src up depth)

include h

theorem mem_sends_root {m : α × α} :
    m ∈ sends fwd root src ↔ m.1 = root ∧ m.2 ∈ nodes ∧ m.2 ≠ root ∧ up m.2 = root := by
  have hmem := h.mem_fwd root h.root_mem m.2
  rw [source, if_pos rfl] at hmem
  rw [mem_sends_iff, hmem]

theorem mem_sends {v : α} (hv : v ∈ nodes) (hne : v ≠ root) {m : α × α} :
    m ∈ sends fwd v (up v) ↔ m.1 = v ∧ m.2 ∈ nodes ∧ m.2 ≠ root ∧ up m.2 = v := by
  have hmem := h.mem_fwd v hv m.2
  rw [source, if_neg hne] at hmem
  rw [mem_sends_iff, hmem]

theorem spreads_start : Spreads nodes root up (start fwd root src) where
  once := by
    have hnodup := h.nodup root h.root_mem
    rw [source, if_pos rfl] at hnodup
    simpa [start, sends] using hnodup
  sender := by
    intro m hm
    rcases h.mem_sends_root.1 (by simpa [start] using hm) with ⟨hm1, hm2, hne, hup⟩
    exact ⟨hm2, hne, hm1.trans hup.symm⟩
  reached := by
    intro w hw hne hup
    rcases hup with hup | hup
    · refine List.mem_map.2 ⟨(root, w), ?_, rfl⟩
      simpa [start] using h.mem_sends_root.2 ⟨rfl, hw, hne, hup⟩
    · simp [start] at hup
  closed := by
    intro m hm
    exact Or.inl (h.mem_sends_root.1 (by simpa [start] using hm)).1

/-- One delivery. -/
theorem spreads_deliver {n n' : Net α} (hn : Spreads nodes root up n) {k : Nat}
    (hk : deliver fwd n k = some n') : Spreads nodes root up n' := by
  rcases Option.map_eq_some_iff.1 hk with ⟨m, hm, rfl⟩
  -- what was sent before is what was sent after, without the new messages
  have hold : (n.done ++ n.pending).Perm ((n.done ++ [m]) ++ n.pending.eraseIdx k) := by
    rw [List.append_assoc]
    exact (perm_eraseIdx hm).append_left n.done
  have hmold : m ∈ n.done ++ n.pending := hold.mem_iff.2 (by simp)
  rcases hn.sender m hmold with ⟨hv, hne, hup⟩
  rw [show sends fwd m.2 m.1 = sends fwd m.2 (up m.2) by rw [← hup]]
  have hall : ((n.done ++ [m]) ++ (n.pending.eraseIdx k ++ sends fwd m.2 (up m.2))).Perm
      ((n.done ++ n.pending) ++ sends fwd m.2 (up m.2)) := by
    rw [← List.append_assoc]
    exact hold.symm.append_right _
  -- nobody that the node sends to was sent the message before
  have hfresh : ∀ m' ∈ sends fwd m.2 (up m.2), m'.2 ∉ (n.done ++ n.pending).map Prod.snd := by
    intro m' hm' hmem
    rcases (h.mem_sends hv hne).1 hm' with ⟨-, hw, hwne, hwup⟩
    rcases List.mem_map.1 hmem with ⟨m'', hm'', heq⟩
    have hfrom : m''.1 = m.2 := by rw [(hn.sender m'' hm'').2.2, heq, hwup]
    rcases hn.closed m'' hm'' with hroot | hdone
    · exact hne (hfrom.symm.trans hroot)
    · -- then the node itself was delivered to before
      rw [hfrom] at hdone
      have hnodup := hn.once
      rw [(hold.map Prod.snd).nodup_iff, List.map_append, List.map_append] at hnodup
      have hdisj := (List.nodup_append.1 (List.nodup_append.1 hnodup).1).2.2
      exact hdisj _ hdone _ (by simp) rfl
  refine ⟨?_, ?_, ?_, ?_⟩
  · rw [(hall.map Prod.snd).nodup_iff, List.map_append, List.nodup_append]
    have hnodup := h.nodup m.2 hv
    rw [source, if_neg hne] at hnodup
    refine ⟨hn.once, by simpa [sends, Function.comp_def] using hnodup, ?_⟩
    intro w hw w' hw' heq
    rcases List.mem_map.1 hw' with ⟨m', hm', rfl⟩
    exact hfresh m' hm' (heq ▸ hw)
  · intro m' hm'
    rcases List.mem_append.1 (hall.mem_iff.1 hm') with hm' | hm'
    · exact hn.sender m' hm'
    · rcases (h.mem_sends hv hne).1 hm' with ⟨hm1, hw, hwne, hwup⟩
      exact ⟨hw, hwne, hm1.trans hwup.symm⟩
  · intro w hw hwne hwup
    rw [(hall.map Prod.snd).mem_iff, List.map_append, List.mem_append]
    simp only [List.map_append, List.mem_append, List.map_cons, List.map_nil, List.mem_singleton]
      at hwup
    rcases hwup with hwup | hwup | hwup
    · exact Or.inl (hn.reached w hw hwne (Or.inl hwup))
    · exact Or.inl (hn.reached w hw hwne (Or.inr hwup))
    · exact Or.inr (List.mem_map.2 ⟨(m.2, w), (h.mem_sends hv hne).2 ⟨rfl, hw, hwne, hwup⟩, rfl⟩)
  · intro m' hm'
    simp only [List.map_append, List.mem_append, List.map_cons, List.map_nil, List.mem_singleton]
    rcases List.mem_append.1 (hall.mem_iff.1 hm') with hm' | hm'
    · rcases hn.closed m' hm' with hroot | hdone
      · exact Or.inl hroot
      · exact Or.inr (Or.inl hdone)
    · exact Or.inr (Or.inr ((h.mem_sends hv hne).1 hm').1)

/-- Any sequence of deliveries. -/
theorem spreads_deliverAll (ks : List Nat) :
    ∀ n n' : Net α, Spreads nodes root up n → deliverAll fwd ks n = some n' →
      Spreads nodes root up n' ∧ n'.done.length = n.done.length + ks.length := by
  induction ks with
  | nil =>
      intro n n' hn hks
      cases hks
      exact ⟨hn, rfl⟩
  | cons k ks ih =>
      intro n n' hn hks
      rcases Option.bind_eq_some_iff.1 hks with ⟨n₁, hk, hks⟩
      rcases ih n₁ n' (h.spreads_deliver hn hk) hks with ⟨hn', hlen⟩
      refine ⟨hn', ?_⟩
      rcases Option.map_eq_some_iff.1 hk with ⟨m, -, rfl⟩
      rw [hlen]
      simp only [List.length_append, List.length_cons, List.length_nil]
      omega

/-- When nothing is left on its way, every other node was reached, and nobody else. -/
theorem mem_done {n : Net α} (hn : Spreads nodes root up n) (hempty : n.pending = []) {w : α} :
    w ∈ n.done.map Prod.snd ↔ w ∈ nodes ∧ w ≠ root := by
  constructor
  · intro hw
    rcases List.mem_map.1 hw with ⟨m, hm, rfl⟩
    rcases hn.sender m (List.mem_append_left _ hm) with ⟨hv, hne, -⟩
    exact ⟨hv, hne⟩
  · rintro ⟨hw, hne⟩
    -- from the root outwards
    induction hd : depth w using Nat.strong_induction_on generalizing w with
    | _ d ih =>
        subst hd
        have hreach := hn.reached w hw hne
        rw [hempty, List.append_nil] at hreach
        by_cases hup : up w = root
        · exact hreach (Or.inl hup)
        · exact hreach (Or.inr (ih _ (h.depth_up w hw hne) (h.up_mem w hw hne) hup rfl))

theorem length_done {n : Net α} (hn : Spreads nodes root up n) :
    n.done.length + n.pending.length ≤ nodes.card - 1 ∧
      (n.pending = [] → n.done.length = nodes.card - 1) := by
  have hcard : (nodes.erase root).card = nodes.card - 1 := Finset.card_erase_of_mem h.root_mem
  constructor
  · have hsub : ((n.done ++ n.pending).map Prod.snd).toFinset ⊆ nodes.erase root := by
      intro w hw
      rcases List.mem_map.1 (List.mem_toFinset.1 hw) with ⟨m, hm, rfl⟩
      rcases hn.sender m hm with ⟨hv, hne, -⟩
      exact Finset.mem_erase.2 ⟨hne, hv⟩
    have hle := Finset.card_le_card hsub
    rw [List.toFinset_card_of_nodup hn.once, hcard] at hle
    simpa using hle
  · intro hempty
    -- every node but the root was reached, by one message
    have heq : (n.done.map Prod.snd).toFinset = nodes.erase root := by
      ext w
      rw [List.mem_toFinset, h.mem_done hn hempty, Finset.mem_erase, and_comm]
    have honce := hn.once
    rw [hempty, List.append_nil] at honce
    rw [← hcard, ← heq, List.toFinset_card_of_nodup honce, List.length_map]

/-! ## Replies -/

omit h

/-- The nodes of the part of the tree below `v`. -/
structure Below (nodes : Finset α) (root : α) (up : α → α) (depth : α → Nat) (v : α) (l : List α) :
    Prop where
  head : v ∈ l
  mem : ∀ u ∈ l, u ∈ nodes
  inner : ∀ u ∈ l, u = v ∨ (u ≠ root ∧ up u ∈ l)
  deep : ∀ u ∈ l, depth v ≤ depth u
  closed : ∀ w ∈ nodes, w ≠ root → up w ∈ l → w ∈ l
  nodup : l.Nodup

/-- Two nodes with the same source have nothing below them in common. -/
theorem Below.disjoint (h : IsTree fwd nodes root src up depth) {v w w' : α} {l l' : List α}
    (hw : Below nodes root up depth w l) (hw' : Below nodes root up depth w' l')
    (hup : up w = v) (hup' : up w' = v) (hlt : depth v < depth w) (hlt' : depth v < depth w')
    (hne : w ≠ w') : l.Disjoint l' := by
  intro u hu hu'
  -- the chain from `u` to the root would pass both
  induction hd : depth u using Nat.strong_induction_on generalizing u with
  | _ d ih =>
      subst hd
      rcases hw.inner u hu with rfl | ⟨hroot, hin⟩
      · rcases hw'.inner u hu' with heq | ⟨-, hin'⟩
        · exact hne heq
        · rw [hup] at hin'
          exact absurd (hw'.deep v hin') (by omega)
      · rcases hw'.inner u hu' with rfl | ⟨-, hin'⟩
        · rw [hup'] at hin
          exact absurd (hw.deep v hin) (by omega)
        · exact ih _ (h.depth_up u (hw.mem u hu) hroot) hin hin' rfl

omit [DecidableEq α] in
theorem exists_left_of_forall₂ {β : Type*} {R : α → β → Prop} {l : List α} {l' : List β}
    (hl : List.Forall₂ R l l') {b : β} (hb : b ∈ l') : ∃ a ∈ l, R a b := by
  induction hl with
  | nil => simp at hb
  | cons hab _ ih =>
      rcases List.mem_cons.1 hb with rfl | hb
      · exact ⟨_, by simp, hab⟩
      · rcases ih hb with ⟨a, ha, hR⟩
        exact ⟨a, List.mem_cons_of_mem _ ha, hR⟩

omit [DecidableEq α] in
theorem pairwise_of_forall₂ {β : Type*} {R : α → β → Prop} {S : α → α → Prop} {T : β → β → Prop}
    (hT : ∀ a a' b b', R a b → R a' b' → S a a' → T b b') {l : List α} {l' : List β}
    (hl : List.Forall₂ R l l') (hS : l.Pairwise S) : l'.Pairwise T := by
  induction hl with
  | nil => exact List.Pairwise.nil
  | cons hab hrest ih =>
      rcases List.pairwise_cons.1 hS with ⟨hhead, htail⟩
      refine List.pairwise_cons.2 ⟨fun b' hb' => ?_, ih htail⟩
      rcases exists_left_of_forall₂ hrest hb' with ⟨a', ha', hR⟩
      exact hT _ _ _ _ hab hR (hhead a' ha')

omit [DecidableEq α] in
/-- Partial maps that succeed together on every element succeed together on a list. -/
theorem mapM_forall₂ {β γ : Type*} {f : α → Option β} {g : α → Option γ} {R : γ → β → Prop}
    (ws : List α) (hfg : ∀ w ∈ ws, ∀ b, f w = some b → ∃ c, g w = some c ∧ R c b) :
    ∀ bs, ws.mapM f = some bs → ∃ cs, ws.mapM g = some cs ∧ List.Forall₂ R cs bs := by
  induction ws with
  | nil =>
      intro bs hbs
      cases hbs
      exact ⟨[], rfl, List.Forall₂.nil⟩
  | cons w ws ih =>
      intro bs hbs
      rw [List.mapM_cons] at hbs
      rcases Option.bind_eq_some_iff.1 hbs with ⟨b, hb, hbs⟩
      rcases Option.bind_eq_some_iff.1 hbs with ⟨bs', hbs', hbs⟩
      cases hbs
      rcases hfg w (by simp) b hb with ⟨c, hc, hR⟩
      rcases ih (fun w' hw' => hfg w' (by simp [hw'])) bs' hbs' with ⟨cs, hcs, hRs⟩
      exact ⟨c :: cs, by rw [List.mapM_cons, hc, hcs]; rfl, List.Forall₂.cons hR hRs⟩

omit [DecidableEq α] in
theorem mapM_of_forall {β : Type*} {f : α → Option β} {R : α → β → Prop} (ws : List α)
    (hf : ∀ w ∈ ws, ∃ b, f w = some b ∧ R w b) :
    ∃ bs, ws.mapM f = some bs ∧ List.Forall₂ R ws bs := by
  induction ws with
  | nil => exact ⟨[], rfl, List.Forall₂.nil⟩
  | cons w ws ih =>
      rcases hf w (by simp) with ⟨b, hb, hR⟩
      rcases ih fun w' hw' => hf w' (by simp [hw']) with ⟨bs, hbs, hRs⟩
      exact ⟨b :: bs, by rw [List.mapM_cons, hb, hbs]; rfl, List.Forall₂.cons hR hRs⟩

omit [DecidableEq α] in
/-- What combines along a call combines along the list of its handlers. -/
theorem gather_of_handlers {β : Type*} {combine : α → List β → β} {R : β → List α → Prop}
    (hR : ∀ v outs ls, List.Forall₂ R outs ls → R (combine v outs) (v :: ls.flatten)) (fuel : Nat) :
    ∀ v s l, handlers fwd fuel v s = some l →
      ∃ b, gather fwd combine fuel v s = some b ∧ R b l := by
  induction fuel with
  | zero =>
      intro v s l hl
      cases hl
  | succ fuel ih =>
      intro v s l hl
      rcases Option.map_eq_some_iff.1 hl with ⟨ls, hls, rfl⟩
      rcases mapM_forall₂ (fwd v s) (fun w _ => ih w v) ls hls with ⟨outs, houts, hRs⟩
      exact ⟨combine v outs, by rw [gather, houts]; rfl, hR v outs ls hRs⟩

/-- With enough fuel a call at `v` is handled by the nodes below it. -/
theorem handlers_below (h : IsTree fwd nodes root src up depth) {bound : Nat}
    (hbound : ∀ v ∈ nodes, depth v ≤ bound) (fuel : Nat) :
    ∀ v ∈ nodes, bound - depth v < fuel →
      ∃ l, handlers fwd fuel v (source root src up v) = some l ∧
        Below nodes root up depth v l := by
  induction fuel with
  | zero =>
      intro v _ hfuel
      exact absurd hfuel (Nat.not_lt_zero _)
  | succ fuel ih =>
      intro v hv hfuel
      have hkid : ∀ w ∈ fwd v (source root src up v), w ∈ nodes ∧ w ≠ root ∧ up w = v :=
        fun w hw => (h.mem_fwd v hv w).1 hw
      have hdepth : ∀ w ∈ fwd v (source root src up v), depth v < depth w := by
        intro w hw
        rcases hkid w hw with ⟨hwn, hne, hup⟩
        have := h.depth_up w hwn hne
        rwa [hup] at this
      rcases mapM_of_forall (fwd v (source root src up v)) (f := fun w => handlers fwd fuel w v)
        (R := fun w l => up w = v ∧ depth v < depth w ∧ Below nodes root up depth w l) (by
          intro w hw
          rcases hkid w hw with ⟨hwn, hne, hup⟩
          have hb := hbound w hwn
          have hlt := hdepth w hw
          rcases ih w hwn (by omega) with ⟨l, hl, hbelow⟩
          rw [source, if_neg hne, hup] at hl
          exact ⟨l, hl, hup, hlt, hbelow⟩) with ⟨ls, hls, hall⟩
      refine ⟨v :: ls.flatten, by simp only [handlers, gather] at hls ⊢; rw [hls]; rfl, ?_⟩
      -- every list below comes from a node that `v` sends to, and the other way round
      have hof : ∀ l ∈ ls, ∃ w ∈ fwd v (source root src up v),
          up w = v ∧ depth v < depth w ∧ Below nodes root up depth w l := by
        intro l hl
        exact exists_left_of_forall₂ hall hl
      have hfor : ∀ w ∈ fwd v (source root src up v), ∃ l ∈ ls, Below nodes root up depth w l := by
        intro w hw
        rcases exists_left_of_forall₂ hall.flip hw with ⟨l, hl, -, -, hbelow⟩
        exact ⟨l, hl, hbelow⟩
      refine ⟨by simp, ?_, ?_, ?_, ?_, ?_⟩
      · intro u hu
        rcases List.mem_cons.1 hu with rfl | hu
        · exact hv
        · rcases List.mem_flatten.1 hu with ⟨l, hl, hul⟩
          rcases hof l hl with ⟨w, -, -, -, hbelow⟩
          exact hbelow.mem u hul
      · intro u hu
        rcases List.mem_cons.1 hu with rfl | hu
        · exact Or.inl rfl
        · rcases List.mem_flatten.1 hu with ⟨l, hl, hul⟩
          rcases hof l hl with ⟨w, hw, hup, -, hbelow⟩
          rcases hbelow.inner u hul with rfl | ⟨hne, hin⟩
          · exact Or.inr ⟨(hkid u hw).2.1, by simp [hup]⟩
          · exact Or.inr ⟨hne, List.mem_cons_of_mem _ (List.mem_flatten.2 ⟨l, hl, hin⟩)⟩
      · intro u hu
        rcases List.mem_cons.1 hu with rfl | hu
        · exact le_refl _
        · rcases List.mem_flatten.1 hu with ⟨l, hl, hul⟩
          rcases hof l hl with ⟨w, -, -, hlt, hbelow⟩
          exact hlt.le.trans (hbelow.deep u hul)
      · intro w hw hne hin
        rcases List.mem_cons.1 hin with hin | hin
        · rcases hfor w ((h.mem_fwd v hv w).2 ⟨hw, hne, hin⟩) with ⟨l, hl, hbelow⟩
          exact List.mem_cons_of_mem _ (List.mem_flatten.2 ⟨l, hl, hbelow.head⟩)
        · rcases List.mem_flatten.1 hin with ⟨l, hl, hul⟩
          rcases hof l hl with ⟨w', -, -, -, hbelow⟩
          exact List.mem_cons_of_mem _ (List.mem_flatten.2 ⟨l, hl, hbelow.closed w hw hne hul⟩)
      · refine List.nodup_cons.2 ⟨fun hu => ?_, List.nodup_flatten.2 ⟨fun l hl => ?_, ?_⟩⟩
        · rcases List.mem_flatten.1 hu with ⟨l, hl, hul⟩
          rcases hof l hl with ⟨w, -, -, hlt, hbelow⟩
          exact absurd (hbelow.deep v hul) (by omega)
        · rcases hof l hl with ⟨w, -, -, -, hbelow⟩
          exact hbelow.nodup
        · exact pairwise_of_forall₂
            (fun w w' l l' hl hl' hne => Below.disjoint h hl.2.2 hl'.2.2 hl.1 hl'.1 hl.2.1 hl'.2.1 hne)
            hall (h.nodup v hv)

/-- A call at the root is handled by every node once. -/
theorem handlers_root (h : IsTree fwd nodes root src up depth) {bound fuel : Nat}
    (hbound : ∀ v ∈ nodes, depth v ≤ bound) (hfuel : bound < fuel) :
    ∃ l, handlers fwd fuel root src = some l ∧ l.Nodup ∧ ∀ v, v ∈ l ↔ v ∈ nodes := by
  rcases handlers_below h hbound fuel root h.root_mem (by omega) with ⟨l, hl, hbelow⟩
  rw [source, if_pos rfl] at hl
  refine ⟨l, hl, hbelow.nodup, fun v => ⟨hbelow.mem v, fun hv => ?_⟩⟩
  induction hd : depth v using Nat.strong_induction_on generalizing v with
  | _ d ih =>
      subst hd
      by_cases hroot : v = root
      · rw [hroot]
        exact hbelow.head
      · exact hbelow.closed v hv hroot
          (ih _ (h.depth_up v hv hroot) (up v) (h.up_mem v hv hroot) rfl)

end IsTree

end Flood
