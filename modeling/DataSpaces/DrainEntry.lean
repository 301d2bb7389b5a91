import DataSpaces.Coherence
import DataSpaces.Drain

/-!
# DrainEntry — the entry that `put_local_rpc` made

A drain updates the owner in the default space.  So it updates the entry that a client registered when the
global dimensions of the put select that space and the servers find the descriptor there.  What comes later
can take the update back: another registration that meets the descriptor, or the drain of another server.
-/

namespace DataSpaces

/-! ## The search in a bin that changes elsewhere -/

section Search

variable {α : Type} {p q : α → Bool} {f : α → α}

/-- Elements that are not looked for may change. -/
theorem find?_map_of_skip (l : List α) (h : ∀ a ∈ l, f a = a ∨ q a = false ∧ q (f a) = false) :
    (l.map f).find? q = l.find? q := by
  induction l with
  | nil => rfl
  | cons a l ih =>
      have hrest := ih fun b hb => h b (List.mem_cons_of_mem _ hb)
      rw [List.map_cons, List.find?_cons, List.find?_cons, hrest]
      rcases h a List.mem_cons_self with hsame | ⟨hold, hnew⟩
      · rw [hsame]
      · rw [hold, hnew]

theorem find?_updateFirst_of_skip (l : List α) (h : ∀ a, p a = true → q a = false ∧ q (f a) = false) :
    (updateFirst p f l).find? q = l.find? q := by
  induction l with
  | nil => rfl
  | cons a l ih =>
      rw [updateFirst]
      cases hp : p a with
      | true =>
          rcases h a hp with ⟨hold, hnew⟩
          rw [if_pos rfl, List.find?_cons, List.find?_cons, hold, hnew]
      | false =>
          rw [if_neg Bool.false_ne_true, List.find?_cons, List.find?_cons, ih]

/-- Nothing but the first hit changes, and nothing moves. -/
theorem map_updateFirst {β : Type} {g : α → β} (hg : ∀ a, g (f a) = g a) (l : List α) :
    (updateFirst p f l).map g = l.map g := by
  induction l with
  | nil => rfl
  | cons a l ih =>
      rw [updateFirst]
      split
      · rw [List.map_cons, List.map_cons, hg]
      · rw [List.map_cons, List.map_cons, ih]

end Search

/-! ## A descriptor in a table that changes -/

namespace DhtTable

variable {de : DhtTable} {odsc odsc' : ObjDesc}

/-- Registering `odsc'` changes what is found for `odsc`: the two have one version, name and box, or the
node that is written over has those of `odsc`. -/
def touches (de : DhtTable) (odsc' odsc : ObjDesc) : Bool :=
  objDescEqualsNoOwner odsc odsc' ||
    (de.dhtFindMatch odsc').any fun odscl => objDescEqualsNoOwner odsc odscl.odsc

theorem index_eq_of_equals (h : objDescEqualsNoOwner odsc odsc' = true) : de.index odsc = de.index odsc' := by
  rw [index, index, (objDescEqualsNoOwner_iff.1 h).1]

/-- Descriptors of one version, name and box are found together. -/
theorem dhtFindExact_congr (h : objDescEqualsNoOwner odsc odsc' = true) :
    de.dhtFindExact odsc = de.dhtFindExact odsc' := by
  have hsame : (fun odscl : Slot => objDescEqualsNoOwner odsc odscl.odsc) =
      fun odscl => objDescEqualsNoOwner odsc' odscl.odsc := by
    funext odscl
    rw [Bool.eq_iff_iff]
    exact ⟨objDescEqualsNoOwner_trans (objDescEqualsNoOwner_symm h), objDescEqualsNoOwner_trans h⟩
  rw [dhtFindExact, dhtFindExact, hsame, index_eq_of_equals h]

/-- A registration that does not touch the descriptor leaves it where it is. -/
theorem Ok.dhtFindExact_store (h : de.Ok) (htouch : de.touches odsc' odsc = false) :
    (de.store odsc').dhtFindExact odsc = de.dhtFindExact odsc := by
  rw [dhtFindExact, dhtFindExact, index_store]
  rw [touches, Bool.or_eq_false_iff] at htouch
  cases hfind : de.dhtFindMatch odsc' with
  | none =>
      rw [odscHash_store_of_new hfind]
      split
      · rw [List.find?_cons]
        simp only [htouch.1]
      · rfl
  | some odscl =>
      rw [odscHash_store_of_match hfind]
      split
      · refine find?_map_of_skip _ fun s hs => ?_
        by_cases hid : s.id = odscl.id
        · -- the node that is overwritten is not one of the descriptor
          have hseq := h.eq_of_id hs (dhtFindMatch_some hfind).1 hid
          refine Or.inr ⟨?_, by rw [if_pos hid]; exact htouch.1⟩
          have hother := htouch.2
          rw [hfind] at hother
          rw [hseq]
          exact hother
        · exact Or.inl (if_neg hid)
      · rfl

/-- Nor does an update of the owner of another descriptor. -/
theorem dhtFindExact_dhtUpdateOwner_ne (h : objDescEqualsNoOwner odsc odsc' = false) (clearFlag : Bool) :
    (de.dhtUpdateOwner odsc' clearFlag).dhtFindExact odsc = de.dhtFindExact odsc := by
  have hindex : (de.dhtUpdateOwner odsc' clearFlag).index odsc = de.index odsc := rfl
  rw [dhtFindExact, dhtFindExact, hindex]
  simp only [dhtUpdateOwner, Function.update_apply]
  split
  · next hn =>
      rw [← hn]
      refine find?_updateFirst_of_skip _ fun odscl hhit => ?_
      have hno : objDescEqualsNoOwner odsc odscl.odsc = false := by
        rw [Bool.eq_false_iff]
        intro heq
        have hboth := objDescEqualsNoOwner_trans heq (objDescEqualsNoOwner_symm hhit)
        rw [h] at hboth
        cases hboth
      exact ⟨hno, hno⟩
  · rfl

/-- An update of its own owner is found there. -/
theorem dhtFindExact_dhtUpdateOwner_of_equals (h : objDescEqualsNoOwner odsc odsc' = true)
    (clearFlag : Bool) : (de.dhtUpdateOwner odsc' clearFlag).dhtFindExact odsc =
      (de.dhtFindExact odsc).map fun odscl =>
        { odscl with odsc := odscl.odsc.withOwner odsc'.owner clearFlag } := by
  rw [dhtFindExact_congr h, dhtFindExact_congr h, dhtFindExact_dhtUpdateOwner]

theorem Ok.dhtUpdateOwner (h : de.Ok) (odsc : ObjDesc) (clearFlag : Bool) :
    (de.dhtUpdateOwner odsc clearFlag).Ok := by
  have hids : ∀ n, ((de.dhtUpdateOwner odsc clearFlag).odscHash n).map (fun s => (s.id, s.odsc.version)) =
      (de.odscHash n).map fun s => (s.id, s.odsc.version) := by
    intro n
    simp only [DhtTable.dhtUpdateOwner, Function.update_apply]
    split
    · next hn =>
        rw [hn]
        refine map_updateFirst ?_ _
        intro s
        rfl
    · rfl
  -- every node has the number and the version that a node of the bin had
  have hold : ∀ n, ∀ s ∈ (de.dhtUpdateOwner odsc clearFlag).odscHash n,
      ∃ s₀ ∈ de.odscHash n, s₀.id = s.id ∧ s₀.odsc.version = s.odsc.version := by
    intro n s hs
    have hmem := List.mem_map_of_mem (f := fun s : Slot => (s.id, s.odsc.version)) hs
    rw [hids] at hmem
    rcases List.mem_map.1 hmem with ⟨s₀, hs₀, heq⟩
    rw [Prod.mk.injEq] at heq
    exact ⟨s₀, hs₀, heq⟩
  refine ⟨h.size_pos, fun n s hs => ?_, fun n s hs => ?_, fun n => ?_, fun n n' s s' hs hs' hid => ?_⟩
  · rcases hold n s hs with ⟨s₀, hs₀, -, hver⟩
    rw [← h.binned n s₀ hs₀, index, index, hver]
    rfl
  · rcases hold n s hs with ⟨s₀, hs₀, hid, -⟩
    rw [← hid]
    exact h.below n s₀ hs₀
  · have hfst := congrArg (List.map Prod.fst) (hids n)
    rw [List.map_map, List.map_map] at hfst
    exact hfst ▸ h.unique n
  · rcases hold n s hs with ⟨s₀, hs₀, hid₀, -⟩
    rcases hold n' s' hs' with ⟨s₁, hs₁, hid₁, -⟩
    exact h.apart n n' s₀ s₁ hs₀ hs₁ (hid₀.trans (hid.trans hid₁.symm))

theorem Ok.withSubs (h : de.Ok) (subs : Nat → List DhtSub) : Ok { de with dhtSubs := subs } :=
  ⟨h.size_pos, h.binned, h.below, h.unique, h.apart⟩

/-- The table after `dht_add_entry`, up to the subscriptions. -/
theorem dhtAddEntry_fst {count : BBox → Option Int64} {r : DhtTable × List DhtSub}
    (h : dhtAddEntry count de odsc = some r) : ∃ subs, r.1 = { de.store odsc with dhtSubs := subs } := by
  rcases Option.bind_eq_some_iff.1 h with ⟨notified, -, h⟩
  cases h
  exact ⟨_, rfl⟩

end DhtTable

/-! ## The default table of a server -/

namespace Server

variable {hilbertC2i : HilbertC2i} {uninit : Unwritten} {conf : Conf} {sv sv' : Server} {rank : Nat}
  {gdim : GlobalDimension} {odsc : ObjDesc} {e : SpaceEntry}

theorem dflt_setEntSelf (sv : Server) (id : Nat) (table : DhtTable) :
    (sv.setEntSelf id table).dflt = sv.dflt.setEntSelf id table :=
  rfl

/-- A lookup leaves the default space alone, and finds it exactly for its global dimensions. -/
theorem lookupSspace_dflt (hok : sv.Ok hilbertC2i uninit conf rank)
    (h : lookupSspace hilbertC2i uninit conf sv gdim = some (sv', e)) :
    sv'.dflt = sv.dflt ∧ (e = sv.dflt ∧ globalDimensionEqual gdim conf.defaultGdim = true ∨ e.id ≠ 0) := by
  rw [lookupSspace] at h
  split at h
  · next e' hfind =>
      cases h
      refine ⟨rfl, ?_⟩
      rw [findSspace, hok.dflt_gdim] at hfind
      split at hfind
      · next hd =>
          cases hfind
          exact Or.inl ⟨rfl, hd⟩
      · exact Or.inr (hok.numbered e (List.mem_of_find?_eq_some hfind)).1.ne'
  · rcases Option.map_eq_some_iff.1 h with ⟨ssd, -, heq⟩
    cases heq
    exact ⟨rfl, Or.inr (Nat.succ_ne_zero _)⟩

/-- What the default table is after a registration: as it was, or with the descriptor stored. -/
def Registers (conf : Conf) (odsc : ObjDesc) (gdim : GlobalDimension) (de de' : DhtTable) : Prop :=
  de' = de ∨ globalDimensionEqual gdim conf.defaultGdim = true ∧
    ∃ subs, de' = { de.store odsc with dhtSubs := subs }

/-- A server with the same default space but perhaps for its table, which is one of those that come from
registering the descriptor in the table `de`. -/
structure AfterNew (conf : Conf) (odsc : ObjDesc) (gdim : GlobalDimension) (de : DhtTable) (sv : Server) :
    Prop where
  id : sv.dflt.id = 0
  table : Registers conf odsc gdim de sv.dflt.entSelf

theorem AfterNew.objUpdateLocalDht {de : DhtTable} (h : AfterNew conf odsc gdim de sv)
    (he : e.entSelf = de ∧ globalDimensionEqual gdim conf.defaultGdim = true ∨ e.id ≠ 0)
    (hupd : Server.objUpdateLocalDht hilbertC2i uninit sv e odsc = some sv') :
    AfterNew conf odsc gdim de sv' := by
  rcases Option.map_eq_some_iff.1 hupd with ⟨r, hadd, rfl⟩
  refine ⟨?_, ?_⟩
  · rw [dflt_setEntSelf, SpaceEntry.id_setEntSelf, h.id]
  · rw [dflt_setEntSelf, SpaceEntry.setEntSelf]
    split
    · next hid =>
        rcases he with ⟨htable, hd⟩ | hne
        · rcases DhtTable.dhtAddEntry_fst hadd with ⟨subs, hr⟩
          rw [htable] at hr
          exact Or.inr ⟨hd, subs, hr⟩
        · exact absurd (hid.symm.trans h.id) hne
    · exact h.table

theorem AfterNew.distribute {de : DhtTable}
    (he : e.entSelf = de ∧ globalDimensionEqual gdim conf.defaultGdim = true ∨ e.id ≠ 0) (ranks : List Nat) :
    ∀ (sv : Server) (r : Server × List UpdateMsg), AfterNew conf odsc gdim de sv →
      Server.distribute hilbertC2i uninit odsc gdim e ranks sv = some r → AfterNew conf odsc gdim de r.1 := by
  induction ranks with
  | nil =>
      intro sv r h hdist
      cases hdist
      exact h
  | cons dest ranks ih =>
      intro sv r h hdist
      rw [Server.distribute] at hdist
      split at hdist
      · rcases Option.bind_eq_some_iff.1 hdist with ⟨sv₁, hupd, hdist⟩
        exact ih sv₁ r (h.objUpdateLocalDht he hupd) hdist
      · rcases Option.bind_eq_some_iff.1 hdist with ⟨r', hrest, hdist⟩
        cases hdist
        exact ih sv r' h hrest

theorem registers_objUpdateDht (hok : sv.Ok hilbertC2i uninit conf rank) {r : Server × List UpdateMsg}
    (h : objUpdateDht hilbertC2i uninit conf sv odsc gdim = some r) :
    Registers conf odsc gdim sv.dflt.entSelf r.1.dflt.entSelf := by
  rcases Option.bind_eq_some_iff.1 h with ⟨⟨sv₁, e⟩, hlook, h⟩
  rcases Option.bind_eq_some_iff.1 h with ⟨⟨dhtTab, sfc⟩, -, h⟩
  rcases lookupSspace_dflt hok hlook with ⟨hdflt, he⟩
  have he' : e.entSelf = sv.dflt.entSelf ∧ globalDimensionEqual gdim conf.defaultGdim = true ∨ e.id ≠ 0 :=
    he.imp_left fun h => ⟨by rw [h.1], h.2⟩
  have hstart : AfterNew conf odsc gdim sv.dflt.entSelf { sv₁ with sfcHash := sfc } :=
    ⟨by rw [hdflt, hok.dflt_id], Or.inl (by rw [hdflt])⟩
  dsimp only at h
  split at h
  · rcases Option.bind_eq_some_iff.1 h with ⟨sv₂, hupd, h⟩
    cases h
    exact (hstart.objUpdateLocalDht he' hupd).table
  · exact (AfterNew.distribute he' _ _ r hstart h).table

theorem registers_objUpdateRpcAs (hok : sv.Ok hilbertC2i uninit conf rank) {msg : UpdateMsg}
    (h : objUpdateRpcAs hilbertC2i uninit conf .new sv msg = some sv') :
    Registers conf msg.odsc msg.gdim sv.dflt.entSelf sv'.dflt.entSelf := by
  rcases Option.bind_eq_some_iff.1 h with ⟨⟨sv₁, e⟩, hlook, h⟩
  rcases lookupSspace_dflt hok hlook with ⟨hdflt, he⟩
  have hstart : AfterNew conf msg.odsc msg.gdim sv.dflt.entSelf sv₁ :=
    ⟨by rw [hdflt, hok.dflt_id], Or.inl (by rw [hdflt])⟩
  exact (hstart.objUpdateLocalDht (he.imp_left fun h => ⟨by rw [h.1], h.2⟩) h).table

/-- The default table after the owner has been updated there. -/
theorem entSelf_updateDflt (sv : Server) (odsc : ObjDesc) :
    (sv.updateDflt odsc).dflt.entSelf = sv.dflt.entSelf.dhtUpdateOwner odsc true := by
  rw [updateDflt, dflt_setEntSelf, SpaceEntry.setEntSelf, if_pos rfl]

/-- The default table after `get_client_data`: the owner has been updated if the server is among those that
it updates. -/
theorem entSelf_getClientData {answer : Option Buf} {r : Server × List UpdateMsg}
    (h : getClientData hilbertC2i uninit conf sv odsc answer = some r) {asked : List Nat}
    (hasked : sv.ownerRanks hilbertC2i uninit odsc = some asked) :
    r.1.dflt.entSelf = (if sv.rank ∈ asked then
        sv.dflt.entSelf.dhtUpdateOwner { odsc with owner := .server sv.rank } true
      else sv.dflt.entSelf) ∧
    r.2 = (asked.filter fun dest => dest ≠ sv.rank).map fun dest =>
      ⟨dest, { odsc with owner := .server sv.rank }, ⟨0, Coord.ofFn fun _ => 0⟩⟩ := by
  replace h := (getClientData_some _ _ _ h).2
  rw [objUpdateDhtAs_owner rfl] at h
  generalize hls : (answer.map fun data => sv.ls.lsAddObj
    (objDataAllocNoData { odsc with owner := .server sv.rank } data)).getD sv.ls = ls at h
  rcases Option.map_eq_some_iff.1 hasked with ⟨⟨deTab, sfc⟩, hhash, rfl⟩
  simp only [hhash, Option.map_some, Option.some.injEq] at h
  rw [← h]
  refine ⟨?_, ?_⟩
  · dsimp only
    split
    · rw [entSelf_updateDflt]
    · rfl
  · -- who is asked alone is the server itself
    dsimp only
    rw [askedRanks]
    split
    · next hnil => simp [List.isEmpty_iff.1 hnil]
    · rfl

end Server

/-! ## What a step does to a default table -/

namespace DrainGroup

/-- The table of the default space at a server. -/
def dfltTab (g : DrainGroup) (r : Nat) : DhtTable :=
  (g.server r).dflt.entSelf

/-- The default tables that a server may have after a step. -/
inductive Written (conf : Conf) (g : DrainGroup) (r : Nat) : DrainEvent → DhtTable → Prop
  | kept (ev : DrainEvent) : Written conf g r ev (g.dfltTab r)
  | registered {odsc : ObjDesc} {gdim : GlobalDimension} {subs : Nat → List DhtSub}
      (hgdim : globalDimensionEqual gdim conf.defaultGdim = true) :
      Written conf g r (.putLocal r odsc gdim) { (g.dfltTab r).store odsc with dhtSubs := subs }
  | arrived {k : Nat} {msg : UpdateMsg} {subs : Nat → List DhtSub} (hk : g.net[k]? = some (.new, msg))
      (hdest : msg.dest = r) (hgdim : globalDimensionEqual msg.gdim conf.defaultGdim = true) :
      Written conf g r (.deliver k) { (g.dfltTab r).store msg.odsc with dhtSubs := subs }
  | drained {odsc : ObjDesc} {rest : List ObjDesc} {answer : Option Buf}
      (hlist : g.drainList r = odsc :: rest) :
      Written conf g r (.drain r answer) ((g.dfltTab r).dhtUpdateOwner { odsc with owner := .server r } true)
  | owned {k : Nat} {msg : UpdateMsg} (hk : g.net[k]? = some (.owner, msg)) (hdest : msg.dest = r) :
      Written conf g r (.deliver k) ((g.dfltTab r).dhtUpdateOwner msg.odsc true)

/-- The servers are in order, their default tables too, and updates of the owner name no global
dimensions. -/
structure Sound (hilbertC2i : HilbertC2i) (uninit : Nat → Unwritten) (conf : Conf) (g : DrainGroup) : Prop where
  ok : g.Ok hilbertC2i uninit conf
  tables : ∀ r, (g.dfltTab r).Ok
  owner : ∀ msg, (ObjUpdateType.owner, msg) ∈ g.net → msg.gdim.ndim = 0

section Steps

variable {hilbertC2i : HilbertC2i} {uninit : Nat → Unwritten} {conf : Conf} {g g' : DrainGroup}

theorem dfltTab_update {rank r : Nat} {sv : Server}
    (hserver : g'.server = Function.update g.server rank sv) :
    g'.dfltTab r = if r = rank then sv.dflt.entSelf else g.dfltTab r := by
  rw [dfltTab, hserver, Function.update_apply]
  split <;> rfl

/-- An update of the owner that arrives is an update in the default space. -/
theorem Sound.step_owner (h : g.Sound hilbertC2i uninit conf) {k : Nat} {msg : UpdateMsg}
    (hk : g.net[k]? = some (.owner, msg)) (hstep : g.step hilbertC2i uninit conf (.deliver k) = some g') :
    g'.dfltTab msg.dest = (g.dfltTab msg.dest).dhtUpdateOwner msg.odsc true := by
  rcases Option.bind_eq_some_iff.1 hstep with ⟨update, hupdate, hstep⟩
  rw [hk, Option.some.injEq] at hupdate
  subst hupdate
  rcases Option.map_eq_some_iff.1 hstep with ⟨g₁, harrive, rfl⟩
  rcases Option.map_eq_some_iff.1 harrive with ⟨sv, hupd, rfl⟩
  rw [Server.objUpdateRpcAs_owner (h.owner msg (List.mem_of_getElem? hk)), Option.some.injEq] at hupd
  subst hupd
  rw [dfltTab_update (g := g) rfl, if_pos rfl, Server.entSelf_updateDflt]
  rfl

/-- A turn of a drain thread that has a descriptor to drain. -/
theorem Sound.step_drain (h : g.Sound hilbertC2i uninit conf) {rank : Nat} {answer : Option Buf}
    {odsc : ObjDesc} {rest : List ObjDesc} (hlist : g.drainList rank = odsc :: rest)
    (hstep : g.step hilbertC2i uninit conf (.drain rank answer) = some g') :
    ∃ asked, (g.server rank).ownerRanks hilbertC2i (uninit rank) odsc = some asked ∧
      (∀ r, g'.dfltTab r = if r = rank ∧ rank ∈ asked then
        (g.dfltTab r).dhtUpdateOwner { odsc with owner := .server rank } true else g.dfltTab r) ∧
      g'.net = g.net ++ (asked.filter fun dest => dest ≠ rank).map fun dest =>
        (.owner, ⟨dest, { odsc with owner := .server rank }, ⟨0, Coord.ofFn fun _ => 0⟩⟩) := by
  rcases Option.map_eq_some_iff.1 hstep with ⟨r, hturn, rfl⟩
  rcases exists_hash_of_drainTurn hlist hturn with ⟨deTab, sfc, hhash⟩
  have hasked : (g.server rank).ownerRanks hilbertC2i (uninit rank) odsc =
      some (askedRanks (g.server rank).rank (deTab.map DePtr.rank)) :=
    Option.map_eq_some_iff.2 ⟨_, hhash, rfl⟩
  simp only [drainTurn, hlist] at hturn
  rcases Option.map_eq_some_iff.1 hturn with ⟨r', hget, rfl⟩
  rcases Server.entSelf_getClientData hget hasked with ⟨htable, hmsgs⟩
  rw [(h.ok rank).rank] at hasked htable hmsgs
  refine ⟨_, hasked, fun r => ?_, ?_⟩
  · rw [dfltTab_update (g := g) rfl, htable]
    by_cases hr : r = rank
    · subst hr
      simp only [if_true, true_and]
      rfl
    · simp only [hr, if_false, false_and]
  · simp only [hmsgs, List.map_map]
    rfl

/-- The inversion of a step at one default table. -/
theorem Sound.written (h : g.Sound hilbertC2i uninit conf) {ev : DrainEvent}
    (hstep : g.step hilbertC2i uninit conf ev = some g') (r : Nat) : Written conf g r ev (g'.dfltTab r) := by
  have hregisters : ∀ {odsc gdim de'}, Server.Registers conf odsc gdim (g.dfltTab r) de' →
      de' = g.dfltTab r ∨ ∃ subs, globalDimensionEqual gdim conf.defaultGdim = true ∧
        de' = { (g.dfltTab r).store odsc with dhtSubs := subs } := by
    rintro odsc gdim de' (hsame | ⟨hd, subs, hstored⟩)
    · exact Or.inl hsame
    · exact Or.inr ⟨subs, hd, hstored⟩
  cases ev with
  | putLocal rank odsc gdim =>
      rcases Option.map_eq_some_iff.1 hstep with ⟨r', hupd, rfl⟩
      rw [Server.objUpdateDhtAs_new] at hupd
      rw [dfltTab_update (g := g) rfl]
      split
      · next hr =>
          subst hr
          rcases hregisters (Server.registers_objUpdateDht (h.ok r) hupd) with hsame | ⟨subs, hd, hstored⟩
          · rw [hsame]
            exact .kept _
          · rw [hstored]
            exact .registered hd
      · exact .kept _
  | drain rank answer =>
      cases hlist : g.drainList rank with
      | nil =>
          rcases Option.map_eq_some_iff.1 hstep with ⟨r', hturn, rfl⟩
          simp only [drainTurn, hlist, Option.some.injEq] at hturn
          rw [← hturn]
          exact .kept _
      | cons odsc rest =>
          rcases h.step_drain hlist hstep with ⟨asked, -, htable, -⟩
          rw [htable]
          split
          · next hr =>
              obtain ⟨rfl, -⟩ := hr
              exact .drained hlist
          · exact .kept _
  | deliver k =>
      rcases Option.bind_eq_some_iff.1 hstep with ⟨⟨type, msg⟩, hk, hdeliver⟩
      rcases Option.map_eq_some_iff.1 hdeliver with ⟨g₁, harrive, rfl⟩
      rcases Option.map_eq_some_iff.1 harrive with ⟨sv, hupd, rfl⟩
      by_cases hr : r = msg.dest
      · subst hr
        cases type with
        | new =>
            rw [dfltTab_update (g := g) rfl, if_pos rfl]
            rcases hregisters (Server.registers_objUpdateRpcAs (h.ok msg.dest) hupd) with
              hsame | ⟨subs, hd, hstored⟩
            · rw [hsame]
              exact .kept _
            · rw [hstored]
              exact .arrived hk rfl hd
        -- the update of the owner is about the default table alone
        | owner =>
            rw [h.step_owner hk hstep]
            exact .owned hk rfl
      · rw [dfltTab_update (g := g) rfl, if_neg hr]
        exact .kept _

/-- An update on its way stays there until it is delivered. -/
theorem mem_net_step {update : ObjUpdateType × UpdateMsg} (hmem : update ∈ g.net) {ev : DrainEvent}
    (hstep : g.step hilbertC2i uninit conf ev = some g') :
    update ∈ g'.net ∨ ∃ k, ev = .deliver k ∧ g.net[k]? = some update := by
  cases ev with
  | putLocal rank odsc gdim =>
      rcases Option.map_eq_some_iff.1 hstep with ⟨r, -, rfl⟩
      exact Or.inl (List.mem_append_left _ hmem)
  | drain rank answer =>
      rcases Option.map_eq_some_iff.1 hstep with ⟨r, hturn, rfl⟩
      refine Or.inl (List.mem_append_left _ ?_)
      rw [drainTurn] at hturn
      split at hturn
      · cases hturn
        exact hmem
      · rcases Option.map_eq_some_iff.1 hturn with ⟨r', -, rfl⟩
        exact hmem
  | deliver k =>
      rcases Option.bind_eq_some_iff.1 hstep with ⟨update', hk, hstep⟩
      rcases Option.map_eq_some_iff.1 hstep with ⟨g₁, harrive, rfl⟩
      rcases Option.map_eq_some_iff.1 harrive with ⟨sv, -, rfl⟩
      by_cases heq : update = update'
      · exact Or.inr ⟨k, rfl, heq ▸ hk⟩
      · refine Or.inl ?_
        -- only the one that is delivered leaves
        rcases List.getElem?_of_mem hmem with ⟨i, hi⟩
        refine List.mem_eraseIdx_iff_getElem?.2 ⟨i, fun hik => heq ?_, hi⟩
        rw [hik, hk, Option.some.injEq] at hi
        exact hi.symm

theorem Sound.step (h : g.Sound hilbertC2i uninit conf) {ev : DrainEvent}
    (hstep : g.step hilbertC2i uninit conf ev = some g') : g'.Sound hilbertC2i uninit conf where
  ok := h.ok.step hstep
  tables r := by
    have hwritten := h.written hstep r
    generalize g'.dfltTab r = de' at hwritten
    cases hwritten with
    | kept ev => exact h.tables r
    | registered hd => exact ((h.tables r).store _).withSubs _
    | arrived hk hdest hd => exact ((h.tables r).store _).withSubs _
    | drained hlist => exact (h.tables r).dhtUpdateOwner _ _
    | owned hk hdest => exact (h.tables r).dhtUpdateOwner _ _
  -- a drain is the only step that puts updates of the owner on their way
  owner := by
    intro msg hmsg
    cases ev with
    | putLocal rank odsc gdim =>
        rcases Option.map_eq_some_iff.1 hstep with ⟨r, -, rfl⟩
        rcases List.mem_append.1 hmsg with hold | hnew
        · exact h.owner msg hold
        · rcases List.mem_map.1 hnew with ⟨_, -, heq⟩
          cases heq
    | drain rank answer =>
        cases hlist : g.drainList rank with
        | nil =>
            rcases Option.map_eq_some_iff.1 hstep with ⟨r', hturn, rfl⟩
            simp only [drainTurn, hlist, Option.some.injEq] at hturn
            rw [← hturn, List.append_nil] at hmsg
            exact h.owner msg hmsg
        | cons odsc rest =>
            rcases h.step_drain hlist hstep with ⟨asked, -, -, hnet⟩
            rw [hnet] at hmsg
            rcases List.mem_append.1 hmsg with hold | hnew
            · exact h.owner msg hold
            · rcases List.mem_map.1 hnew with ⟨dest, -, heq⟩
              cases heq
              rfl
    | deliver k =>
        rcases Option.bind_eq_some_iff.1 hstep with ⟨update, -, hstep⟩
        rcases Option.map_eq_some_iff.1 hstep with ⟨g₁, harrive, rfl⟩
        rcases Option.map_eq_some_iff.1 harrive with ⟨sv, -, rfl⟩
        exact h.owner msg (List.mem_of_mem_eraseIdx hmsg)

theorem isRun : Runs.IsRun (step hilbertC2i uninit conf) fun es g => g.run hilbertC2i uninit conf es :=
  Runs.isRun_foldlM _

theorem Sound.run (evs : List DrainEvent) : ∀ g g' : DrainGroup, g.Sound hilbertC2i uninit conf →
    g.run hilbertC2i uninit conf evs = some g' → g'.Sound hilbertC2i uninit conf :=
  isRun.keeps (fun _ _ _ h hstep => h.step hstep) evs

theorem sound_init {spaces : Nat → SSpace}
    (hspaces : conf.SpacesFor hilbertC2i uninit conf.defaultGdim spaces) (hversions : 0 < conf.maxVersions) :
    (init conf spaces).Sound hilbertC2i uninit conf :=
  ⟨Group.ok_init hspaces, fun _ => DhtTable.ok_dhtEntryAlloc hversions, by simp [init]⟩

end Steps

end DrainGroup

/-! ## One drain -/

/-- The descriptor names the server as its owner, and the flag is cleared. -/
def ObjDesc.DrainedBy (odsc : ObjDesc) (self : Nat) : Prop :=
  odsc.owner = .server self ∧ odsc.flags &&& DS_CLIENT_STORAGE = 0

/-- The table finds the descriptor, drained. -/
def DhtTable.Updated (de : DhtTable) (odsc : ObjDesc) (self : Nat) : Prop :=
  ∃ s, de.dhtFindExact odsc = some s ∧ s.odsc.DrainedBy self

namespace DhtTable

variable {de : DhtTable} {odsc odsc' : ObjDesc} {self : Nat}

/-- An update of the owner that is about the descriptor finds it, or leaves nothing. -/
theorem updated_dhtUpdateOwner_iff (h : objDescEqualsNoOwner odsc odsc' = true)
    (howner : odsc'.owner = .server self) :
    (de.dhtUpdateOwner odsc' true).Updated odsc self ↔ (de.dhtFindExact odsc).isSome := by
  rw [Updated, dhtFindExact_dhtUpdateOwner_of_equals h]
  constructor
  · rintro ⟨s, hs, -⟩
    rcases Option.map_eq_some_iff.1 hs with ⟨s₀, hs₀, -⟩
    rw [hs₀]
    rfl
  · intro hfound
    rcases Option.isSome_iff_exists.1 hfound with ⟨s, hs⟩
    exact ⟨_, by rw [hs, Option.map_some], howner, flags_withOwner _⟩

/-- It changes nothing iff what it would find is drained already. -/
theorem dhtUpdateOwner_eq_self_iff_drainedBy :
    de.dhtUpdateOwner { odsc with owner := .server self } true = de ↔
      ∀ s, de.dhtFindExact odsc = some s → s.odsc.DrainedBy self := by
  rw [dhtUpdateOwner_eq_self_iff]
  simp only [withOwner_eq_self_iff]
  rfl

end DhtTable

namespace DrainGroup

/-- A drain updates the entry of the put, and that entry only.  With global dimensions that select the default
space every server that the box hashes to finds the descriptor there; with others the entry has already been
drained, and so has what the servers of the default space find. -/
def Updatable (conf : Conf) (g : DrainGroup) (self : Nat) (odsc : ObjDesc) (gdim : GlobalDimension)
    (asked inDflt : List Nat) : Prop :=
  if globalDimensionEqual gdim conf.defaultGdim then
    ∀ r ∈ asked, ((g.dfltTab r).dhtFindExact odsc).isSome
  else
    (∀ r ∈ asked, ((g.server r).tableOf conf gdim).Updated odsc self) ∧
      ∀ r ∈ inDflt, ∀ s, (g.dfltTab r).dhtFindExact odsc = some s → s.odsc.DrainedBy self

section One

variable {hilbertC2i : HilbertC2i} {uninit : Nat → Unwritten} {conf : Conf} {g : DrainGroup}
  {gdim : GlobalDimension}

theorem Ok.tableOf_dflt (hok : g.Ok hilbertC2i uninit conf)
    (hd : globalDimensionEqual gdim conf.defaultGdim = true) (r : Nat) :
    (g.server r).tableOf conf gdim = g.dfltTab r := by
  rw [Server.tableOf, Server.findSspace, (hok r).dflt_gdim, if_pos hd]
  rfl

/-- The default space is the one that has number `0`. -/
theorem Ok.spaceId_eq_zero_iff (hok : g.Ok hilbertC2i uninit conf) (r : Nat) :
    (g.server r).spaceId gdim = 0 ↔ globalDimensionEqual gdim conf.defaultGdim = true := by
  rw [Server.spaceId, Server.findSspace, (hok r).dflt_gdim]
  by_cases hd : globalDimensionEqual gdim conf.defaultGdim = true
  · simp only [hd, if_true, (hok r).dflt_id]
  · simp only [hd, Bool.false_eq_true, if_false, iff_false]
    split
    · next e hfind => exact ((hok r).numbered e (List.mem_of_find?_eq_some hfind)).1.ne'
    · exact Nat.succ_ne_zero _

/-- Once the updates of a successful drain have arrived, in whatever order, the servers that the box hashes to
in the space of the put have the new owner and the cleared flag there, and no other space has changed,
exactly when the group was `Updatable` before. -/
theorem updates_entry_iff (hok : g.Ok hilbertC2i uninit conf) {self : Nat} {odsc : ObjDesc}
    {rest : List ObjDesc} (hlist : g.drainList self = odsc :: rest) {e : SpaceEntry}
    (hspace : (g.server self).findSspace gdim = some e) {deTab : List DePtr} {sfc : SfcHashList}
    (hhash : hashAt hilbertC2i (uninit self) e.id e.ssd odsc.bb (g.server self).sfcHash = some (deTab, sfc))
    {inDflt : List Nat} (hdflt : (g.server self).ownerRanks hilbertC2i (uninit self) odsc = some inDflt)
    {data : Buf} {g₁ g' : DrainGroup} {updates order : List (ObjUpdateType × UpdateMsg)}
    (hturn : g.drainTurn hilbertC2i uninit conf self (some data) = some (g₁, updates))
    (horder : order.Perm updates) (harrive : order.foldlM (arrive hilbertC2i uninit conf) g₁ = some g') :
    ((∀ r ∈ askedRanks self (deTab.map DePtr.rank), ((g'.server r).tableOf conf gdim).Updated odsc self) ∧
        ∀ r gd, (g.server r).spaceId gd ≠ (g.server r).spaceId gdim →
          (g'.server r).tableOf conf gd = (g.server r).tableOf conf gd) ↔
      g.Updatable conf self odsc gdim (askedRanks self (deTab.map DePtr.rank)) inDflt := by
  rcases Option.map_eq_some_iff.1 hdflt with ⟨⟨deTab', sfc'⟩, hhash', rfl⟩
  have hspec := drainTurn_spec hok hlist hhash' hturn horder harrive
  rw [(hok self).rank] at *
  have hequals : objDescEqualsNoOwner odsc { odsc with owner := .server self } = true :=
    objDescEqualsNoOwner_iff.2 ⟨rfl, rfl, bboxEquals_refl _⟩
  rw [Updatable]
  by_cases hd : globalDimensionEqual gdim conf.defaultGdim = true
  · -- the drain asks the servers of the put
    have hsame : deTab = deTab' := by
      rw [Server.findSspace, (hok self).dflt_gdim, if_pos hd, Option.some.injEq] at hspace
      rw [← hspace, hhash', Option.some.injEq, Prod.mk.injEq] at hhash
      exact hhash.1.symm
    rw [if_pos hd, hsame]
    have hothers : ∀ r gd, (g.server r).spaceId gd ≠ (g.server r).spaceId gdim →
        (g'.server r).tableOf conf gd = (g.server r).tableOf conf gd := by
      intro r gd hne
      rw [hspec.tables, if_neg]
      rintro ⟨-, hgd⟩
      exact hne (((hok.spaceId_eq_zero_iff r).2 hgd).trans ((hok.spaceId_eq_zero_iff r).2 hd).symm)
    rw [and_iff_left hothers]
    refine forall₂_congr fun r hr => ?_
    rw [hspec.tables, if_pos ⟨hr, hd⟩]
    exact DhtTable.updated_dhtUpdateOwner_iff hequals rfl
  · rw [if_neg hd]
    refine and_congr (forall₂_congr fun r _ => ?_) ⟨fun h r hr => ?_, fun h r gd _ => ?_⟩
    · rw [hspec.tables, if_neg fun h => hd h.2]
    · -- the default space is another one
      have hself : globalDimensionEqual conf.defaultGdim conf.defaultGdim = true :=
        globalDimensionEqual_iff.2 fun _ _ => rfl
      have hkept := h r conf.defaultGdim fun heq => hd ((hok.spaceId_eq_zero_iff r).1
        (heq.symm.trans ((hok.spaceId_eq_zero_iff r).2 hself)))
      rw [hspec.tables, if_pos ⟨hr, hself⟩, hok.tableOf_dflt hself] at hkept
      exact DhtTable.dhtUpdateOwner_eq_self_iff_drainedBy.1 hkept
    · rw [hspec.tables]
      split
      · next hin =>
          rw [hok.tableOf_dflt hin.2]
          exact DhtTable.dhtUpdateOwner_eq_self_iff_drainedBy.2 (h r hin.1)
      · rfl

end One

/-! ## Steps that come in between -/

/-- The update of the owner that a drain of the descriptor sends to a server. -/
def ownerUpdate (self : Nat) (odsc : ObjDesc) (r : Nat) : ObjUpdateType × UpdateMsg :=
  (.owner, ⟨r, { odsc with owner := .server self }, ⟨0, Coord.ofFn fun _ => 0⟩⟩)

/-- The step takes away what the drain of the server `self` made of the descriptor at the server `r`. -/
def Disturbs (conf : Conf) (g : DrainGroup) (self : Nat) (odsc : ObjDesc) (r : Nat) : DrainEvent → Prop
  | .putLocal rank odsc' gdim =>
      rank = r ∧ globalDimensionEqual gdim conf.defaultGdim = true ∧ (g.dfltTab r).touches odsc' odsc = true
  | .drain rank _ =>
      rank = r ∧ rank ≠ self ∧ ∃ odsc' rest, g.drainList rank = odsc' :: rest ∧
        objDescEqualsNoOwner odsc odsc' = true
  | .deliver k => ∃ type msg, g.net[k]? = some (type, msg) ∧ msg.dest = r ∧
      match type with
      | .new => globalDimensionEqual msg.gdim conf.defaultGdim = true ∧
          (g.dfltTab r).touches msg.odsc odsc = true
      | .owner => objDescEqualsNoOwner odsc msg.odsc = true ∧ msg.odsc.owner ≠ .server self

/-- The step lets the updates of the drain come through: an update that arrives finds the descriptor, and
where it has arrived nothing takes it back. -/
def LetsThrough (conf : Conf) (self : Nat) (odsc : ObjDesc) (asked : List Nat) (g : DrainGroup)
    (ev : DrainEvent) : Prop :=
  ∀ r ∈ asked, (ownerUpdate self odsc r ∉ g.net → ¬ g.Disturbs conf self odsc r ev) ∧
    ∀ k, ev = .deliver k → g.net[k]? = some (ownerUpdate self odsc r) →
      ((g.dfltTab r).dhtFindExact odsc).isSome

/-- Each server has been updated, or the update is on its way. -/
def Underway (self : Nat) (odsc : ObjDesc) (asked : List Nat) (g : DrainGroup) : Prop :=
  ∀ r ∈ asked, ownerUpdate self odsc r ∈ g.net ∨ (g.dfltTab r).Updated odsc self

section Between

variable {hilbertC2i : HilbertC2i} {uninit : Nat → Unwritten} {conf : Conf} {g g' : DrainGroup} {self : Nat}
  {odsc : ObjDesc} {asked : List Nat}

/-- A step that does not disturb an updated entry leaves it updated. -/
theorem Sound.updated (h : g.Sound hilbertC2i uninit conf) {ev : DrainEvent}
    (hstep : g.step hilbertC2i uninit conf ev = some g') {r : Nat}
    (hupdated : (g.dfltTab r).Updated odsc self) (hkeeps : ¬ g.Disturbs conf self odsc r ev) :
    (g'.dfltTab r).Updated odsc self := by
  rcases hupdated with ⟨s, hs, hdrained⟩
  have hfound : ((g.dfltTab r).dhtFindExact odsc).isSome := by
    rw [hs]
    rfl
  have hwritten := h.written hstep r
  generalize g'.dfltTab r = de' at hwritten
  cases hwritten with
  | kept ev => exact ⟨s, hs, hdrained⟩
  | registered hd =>
      have htouch := fun ht => hkeeps ⟨rfl, hd, ht⟩
      exact ⟨s, ((h.tables r).dhtFindExact_store (Bool.eq_false_iff.2 htouch)).trans hs, hdrained⟩
  | arrived hk hdest hd =>
      have htouch := fun ht => hkeeps ⟨_, _, hk, hdest, hd, ht⟩
      exact ⟨s, ((h.tables r).dhtFindExact_store (Bool.eq_false_iff.2 htouch)).trans hs, hdrained⟩
  | @drained odsc' rest _ hlist =>
      by_cases heq : objDescEqualsNoOwner odsc odsc' = true
      · have hself : r = self := by
          by_contra hne
          exact hkeeps ⟨rfl, hne, odsc', rest, hlist, heq⟩
        have hequals : objDescEqualsNoOwner odsc { odsc' with owner := .server r } = true := heq
        exact (DhtTable.updated_dhtUpdateOwner_iff hequals (congrArg Owner.server hself)).2 hfound
      · have hne : objDescEqualsNoOwner odsc { odsc' with owner := .server r } = false :=
          Bool.eq_false_iff.2 heq
        exact ⟨s, (DhtTable.dhtFindExact_dhtUpdateOwner_ne hne true).trans hs, hdrained⟩
  | @owned k msg hk hdest =>
      by_cases heq : objDescEqualsNoOwner odsc msg.odsc = true
      · have howner : msg.odsc.owner = .server self := by
          by_contra hne
          exact hkeeps ⟨_, _, hk, hdest, heq, hne⟩
        exact (DhtTable.updated_dhtUpdateOwner_iff heq howner).2 hfound
      · exact ⟨s, (DhtTable.dhtFindExact_dhtUpdateOwner_ne (Bool.eq_false_iff.2 heq) true).trans hs, hdrained⟩

/-- The drain itself sends the updates, and makes its own. -/
theorem Sound.underway (h : g.Sound hilbertC2i uninit conf) {rest : List ObjDesc}
    (hlist : g.drainList self = odsc :: rest)
    (hasked : (g.server self).ownerRanks hilbertC2i (uninit self) odsc = some asked)
    (hfound : self ∈ asked → ((g.dfltTab self).dhtFindExact odsc).isSome) {answer : Option Buf}
    (hstep : g.step hilbertC2i uninit conf (.drain self answer) = some g') :
    g'.Underway self odsc asked := by
  rcases h.step_drain hlist hstep with ⟨asked', hasked', htable, hnet⟩
  rw [hasked, Option.some.injEq] at hasked'
  subst hasked'
  intro r hr
  by_cases hself : r = self
  · subst hself
    rw [htable, if_pos ⟨rfl, hr⟩]
    have hequals : objDescEqualsNoOwner odsc { odsc with owner := .server r } = true :=
      objDescEqualsNoOwner_iff.2 ⟨rfl, rfl, bboxEquals_refl _⟩
    exact Or.inr ((DhtTable.updated_dhtUpdateOwner_iff hequals rfl).2 (hfound hr))
  · refine Or.inl ?_
    rw [hnet]
    refine List.mem_append_right _ (List.mem_map.2 ⟨r, List.mem_filter.2 ⟨hr, ?_⟩, rfl⟩)
    exact decide_eq_true hself

theorem Underway.step (h : g.Underway self odsc asked) (hsound : g.Sound hilbertC2i uninit conf)
    {ev : DrainEvent} (hev : g.LetsThrough conf self odsc asked ev)
    (hstep : g.step hilbertC2i uninit conf ev = some g') : g'.Underway self odsc asked := by
  intro r hr
  by_cases hpending : ownerUpdate self odsc r ∈ g.net
  · rcases mem_net_step hpending hstep with hstays | ⟨k, rfl, hk⟩
    · exact Or.inl hstays
    · -- the update arrives and finds the descriptor
      refine Or.inr ?_
      have htable := hsound.step_owner hk hstep
      have hequals : objDescEqualsNoOwner odsc { odsc with owner := .server self } = true :=
        objDescEqualsNoOwner_iff.2 ⟨rfl, rfl, bboxEquals_refl _⟩
      rw [show g'.dfltTab r = _ from htable]
      exact (DhtTable.updated_dhtUpdateOwner_iff hequals rfl).2 ((hev r hr).2 k rfl hk)
  · exact Or.inr (hsound.updated hstep ((h r hr).resolve_left hpending) ((hev r hr).1 hpending))

theorem Underway.run (evs : List DrainEvent) (h : g.Underway self odsc asked)
    (hsound : g.Sound hilbertC2i uninit conf)
    (hevs : Runs.Along (fun es g => g.run hilbertC2i uninit conf es)
      (LetsThrough conf self odsc asked) evs g)
    (hrun : g.run hilbertC2i uninit conf evs = some g') : g'.Underway self odsc asked := by
  have hstep : ∀ (g : DrainGroup) (ev : DrainEvent) (g' : DrainGroup),
      g.Sound hilbertC2i uninit conf ∧ g.Underway self odsc asked → g.LetsThrough conf self odsc asked ev →
      g.step hilbertC2i uninit conf ev = some g' →
      g'.Sound hilbertC2i uninit conf ∧ g'.Underway self odsc asked :=
    fun g ev g' hg hev hstep => ⟨hg.1.step hstep, hg.2.step hg.1 hev hstep⟩
  exact (isRun.keeps_along hstep evs g g' ⟨hsound, h⟩ hevs hrun).2

/-- A drain, or an update of the owner that arrives, changes default tables only. -/
theorem Sound.tableOf_step (h : g.Sound hilbertC2i uninit conf) {ev : DrainEvent}
    (hev : (∃ rank answer, ev = .drain rank answer) ∨ ∃ k msg, ev = .deliver k ∧ g.net[k]? = some (.owner, msg))
    (hstep : g.step hilbertC2i uninit conf ev = some g') (r : Nat) {gd : GlobalDimension}
    (hd : ¬ globalDimensionEqual gd conf.defaultGdim = true) :
    (g'.server r).tableOf conf gd = (g.server r).tableOf conf gd := by
  rcases hev with ⟨rank, answer, rfl⟩ | ⟨k, msg, rfl, hk⟩
  · rcases Option.map_eq_some_iff.1 hstep with ⟨r', hturn, rfl⟩
    cases hlist : g.drainList rank with
    | nil =>
        simp only [drainTurn, hlist, Option.some.injEq] at hturn
        rw [← hturn]
    | cons odsc rest =>
        rcases exists_hash_of_drainTurn hlist hturn with ⟨deTab, sfc, hhash⟩
        simp only [drainTurn, hlist] at hturn
        rcases Option.map_eq_some_iff.1 hturn with ⟨⟨sv', msgs⟩, hget, rfl⟩
        rcases Server.getClientData_spec (h.ok rank) hhash hget with ⟨-, htables, -, -⟩
        simp only [Function.update_apply]
        split
        · next hr => rw [htables, if_neg fun h => hd h.2, hr]
        · rfl
  · rcases Option.bind_eq_some_iff.1 hstep with ⟨update, hupdate, hstep⟩
    rw [hk, Option.some.injEq] at hupdate
    subst hupdate
    rcases Option.map_eq_some_iff.1 hstep with ⟨g₁, harrive, rfl⟩
    rcases Option.map_eq_some_iff.1 harrive with ⟨sv, hupd, rfl⟩
    rw [Server.objUpdateRpcAs_owner (h.owner msg (List.mem_of_getElem? hk)), Option.some.injEq] at hupd
    subst hupd
    simp only [setServer, Function.update_apply]
    split
    · next hr => rw [(h.ok msg.dest).tableOf_updateDflt, if_neg hd, hr]
    · rfl

end Between

end DrainGroup

/-- A successful drain and its updates, taken together, leave the claimed entries and all other spaces as they
should be exactly when the group was `Updatable`.  And in a run with default dimensions, whatever comes in
between, the entry of every server has been updated once its update is no longer on its way, if the draining
server finds the descriptor, each update that arrives does too, and no step takes one back; drains and their
updates change no other space. -/
theorem drain_updates_entry_iff {hilbertC2i : HilbertC2i} {uninit : Nat → Unwritten} {conf : Conf}
    {spaces : Nat → SSpace} (hspaces : conf.SpacesFor hilbertC2i uninit conf.defaultGdim spaces)
    (hversions : 0 < conf.maxVersions) :
    (∀ (g g₁ g' : DrainGroup) (self : Nat) (odsc : ObjDesc) (rest : List ObjDesc) (gdim : GlobalDimension)
        (e : SpaceEntry) (deTab : List DePtr) (sfc : SfcHashList) (inDflt : List Nat) (data : Buf)
        (updates order : List (ObjUpdateType × UpdateMsg)),
      g.Ok hilbertC2i uninit conf → g.drainList self = odsc :: rest →
      (g.server self).findSspace gdim = some e →
      hashAt hilbertC2i (uninit self) e.id e.ssd odsc.bb (g.server self).sfcHash = some (deTab, sfc) →
      (g.server self).ownerRanks hilbertC2i (uninit self) odsc = some inDflt →
      g.drainTurn hilbertC2i uninit conf self (some data) = some (g₁, updates) → order.Perm updates →
      order.foldlM (DrainGroup.arrive hilbertC2i uninit conf) g₁ = some g' →
      (((∀ r ∈ askedRanks self (deTab.map DePtr.rank), ((g'.server r).tableOf conf gdim).Updated odsc self) ∧
          ∀ r gd, (g.server r).spaceId gd ≠ (g.server r).spaceId gdim →
            (g'.server r).tableOf conf gd = (g.server r).tableOf conf gd) ↔
        g.Updatable conf self odsc gdim (askedRanks self (deTab.map DePtr.rank)) inDflt)) ∧
    ∀ before g, (DrainGroup.init conf spaces).run hilbertC2i uninit conf before = some g →
      (∀ (self : Nat) (odsc : ObjDesc) (rest : List ObjDesc) (gdim : GlobalDimension) (asked : List Nat)
          (data : Buf) (after : List DrainEvent) (g₁ g' : DrainGroup),
        globalDimensionEqual gdim conf.defaultGdim = true → g.drainList self = odsc :: rest →
        (g.server self).ownerRanks hilbertC2i (uninit self) odsc = some asked →
        (self ∈ asked → ((g.dfltTab self).dhtFindExact odsc).isSome) →
        g.step hilbertC2i uninit conf (.drain self (some data)) = some g₁ →
        g₁.run hilbertC2i uninit conf after = some g' →
        Runs.Along (fun es g => g.run hilbertC2i uninit conf es)
          (DrainGroup.LetsThrough conf self odsc asked) after g₁ →
        ∀ r ∈ asked, DrainGroup.ownerUpdate self odsc r ∉ g'.net →
          ((g'.server r).tableOf conf gdim).Updated odsc self) ∧
      ∀ (ev : DrainEvent) (g' : DrainGroup),
        ((∃ rank answer, ev = .drain rank answer) ∨
          ∃ k msg, ev = .deliver k ∧ g.net[k]? = some (.owner, msg)) →
        g.step hilbertC2i uninit conf ev = some g' → ∀ r gd, ¬ globalDimensionEqual gd conf.defaultGdim = true →
          (g'.server r).tableOf conf gd = (g.server r).tableOf conf gd := by
  constructor
  · intro g g₁ g' self odsc rest gdim e deTab sfc inDflt data updates order hok hlist hspace hhash hdflt hturn
      horder harrive
    exact DrainGroup.updates_entry_iff hok hlist hspace hhash hdflt hturn horder harrive
  · intro before g hbefore
    have hsound := DrainGroup.Sound.run before _ g (DrainGroup.sound_init hspaces hversions) hbefore
    refine ⟨?_, fun ev g' hev hstep r gd hd => hsound.tableOf_step hev hstep r hd⟩
    intro self odsc rest gdim asked data after g₁ g' hd hlist hasked hfound hdrain hafter hevs r hr hnet
    have hsound₁ := hsound.step hdrain
    have hunderway := (hsound.underway hlist hasked hfound hdrain).run after hsound₁ hevs hafter
    have hsound' := DrainGroup.Sound.run after _ g' hsound₁ hafter
    rw [hsound'.ok.tableOf_dflt hd]
    exact (hunderway r hr).resolve_left hnet

/-! ### A put of two cells of server 0 and one of a cell of server 1 -/

/-- Global dimensions that an application may define. -/
def wideGdim : GlobalDimension := ⟨1, Coord.ofFn fun i => if i = 0 then 5 else 0⟩

/-- A turn of the drain thread of server 0 and the arrival of its updates. -/
def drainedBy (answer : Option Buf) (g : DrainGroup) : Option DrainGroup :=
  (g.drainTurn lineC2i zeroed lineConf 0 answer).bind fun r =>
    r.2.foldlM (DrainGroup.arrive lineC2i zeroed lineConf) r.1

/-- In the space that the application defined the descriptor still names the client after the drain. -/
theorem drain_not_updates_entry :
    ∃ g g', registered wideGdim = some g ∧ drainedBy (some fun _ => 0) g = some g' ∧
      (∃ e deTab sfc, (g.server 0).findSspace wideGdim = some e ∧
        hashAt lineC2i (zeroed 0) e.id e.ssd clientDesc.bb (g.server 0).sfcHash = some (deTab, sfc) ∧
        0 ∈ deTab.map DePtr.rank) ∧
      ∃ s, ((g'.server 0).tableOf lineConf wideGdim).dhtFindExact clientDesc = some s ∧
        s.odsc.owner = .client 0 ∧ s.odsc.flags = DS_CLIENT_STORAGE := by
  have hranks : ((registered wideGdim).bind fun g => ((g.server 0).findSspace wideGdim).bind fun e =>
      (hashAt lineC2i (zeroed 0) e.id e.ssd clientDesc.bb (g.server 0).sfcHash).map fun r =>
        r.1.map DePtr.rank) = some [0] := by
    decide +kernel
  have hentry : (((registered wideGdim).bind (drainedBy (some fun _ => 0))).bind fun g' =>
      (((g'.server 0).tableOf lineConf wideGdim).dhtFindExact clientDesc).map fun s =>
        (s.odsc.owner, s.odsc.flags)) = some (.client 0, DS_CLIENT_STORAGE) := by
    decide +kernel
  rcases Option.bind_eq_some_iff.1 hranks with ⟨g, hg, hranks⟩
  -- the group, the space and the drained group behind the computed values
  rcases Option.bind_eq_some_iff.1 hranks with ⟨e, he, hranks⟩
  rcases Option.map_eq_some_iff.1 hranks with ⟨⟨deTab, sfc⟩, hhash, hdeTab⟩
  rw [hg, Option.bind_some] at hentry
  rcases Option.bind_eq_some_iff.1 hentry with ⟨g', hg', hentry⟩
  rcases Option.map_eq_some_iff.1 hentry with ⟨s, hs, hodsc⟩
  rw [Prod.mk.injEq] at hodsc
  exact ⟨g, g', hg, hg', ⟨e, deTab, sfc, he, hhash, by rw [hdeTab]; decide⟩, s, hs, hodsc⟩

/-- A descriptor of the other server that a client registers at server 0. -/
def upperDesc : ObjDesc :=
  { plainDesc 0 (BBox.line 2 2) with owner := .client 0, flags := DS_CLIENT_STORAGE }

/-- The run of a put of the upper cell at server 0, up to the drain. -/
def upperRun (evs : List DrainEvent) : Option DrainGroup :=
  (DrainGroup.init lineConf fun _ => lineSpaceV2).run lineC2i zeroed lineConf
    (.putLocal 0 upperDesc lineConf.defaultGdim :: evs)

/-- With the default dimensions the entry names the server: at server 0 after its own drain, and at server 1
when the registration and then the update have come there. -/
theorem drain_updates_entry_iff_default :
    (∃ g g', registered lineConf.defaultGdim = some g ∧ drainedBy (some fun _ => 0) g = some g' ∧
      ((g'.server 0).tableOf lineConf lineConf.defaultGdim).Updated clientDesc 0) ∧
    ∃ g', upperRun [.drain 0 (some fun _ => 0), .deliver 0, .deliver 0] = some g' ∧
      ((g'.server 1).tableOf lineConf lineConf.defaultGdim).Updated upperDesc 0 := by
  have hspaces : lineConf.SpacesFor lineC2i zeroed lineConf.defaultGdim fun _ => lineSpaceV2 :=
    spaceBuilt_lineConf.spacesFor zeroed
  have hversions : 0 < lineConf.maxVersions := by decide
  have hself : globalDimensionEqual lineConf.defaultGdim lineConf.defaultGdim = true := by decide
  constructor
  · have hranks : ((registered lineConf.defaultGdim).bind fun g =>
        (hashAt lineC2i (zeroed 0) (g.server 0).dflt.id (g.server 0).dflt.ssd clientDesc.bb
          (g.server 0).sfcHash).map fun r => r.1.map DePtr.rank) = some [0] := by
      decide +kernel
    have hturned : ((registered lineConf.defaultGdim).bind (drainedBy (some fun _ => 0))).isSome = true := by
      decide +kernel
    rcases Option.bind_eq_some_iff.1 hranks with ⟨g, hg, hranks⟩
    rcases Option.map_eq_some_iff.1 hranks with ⟨⟨deTab, sfc⟩, hhash, hdeTab⟩
    rw [hg, Option.bind_some, Option.isSome_iff_exists] at hturned
    rcases hturned with ⟨g', hg'⟩
    rcases Option.bind_eq_some_iff.1 hg' with ⟨⟨g₁, updates⟩, hturn, harrive⟩
    have hok : g.Ok lineC2i zeroed lineConf :=
      DrainGroup.Ok.run _ (DrainGroup.init lineConf fun _ => lineSpaceV2) g ok_lineConf hg
    -- what the general theorem asks for, in this group
    have hlist : (registered lineConf.defaultGdim).map (fun g => g.drainList 0) = some [clientDesc] := rfl
    have hslot : (registered lineConf.defaultGdim).map (fun g =>
        ((g.dfltTab 0).dhtFindExact clientDesc).isSome) = some true := rfl
    rw [hg, Option.map_some, Option.some.injEq] at hlist hslot
    have hspace : (g.server 0).findSspace lineConf.defaultGdim = some (g.server 0).dflt := by
      rw [Server.findSspace, (hok 0).dflt_gdim, if_pos hself]
    have hasked : askedRanks 0 (deTab.map DePtr.rank) = [0] := by
      rw [hdeTab]
      rfl
    have hinDflt : (g.server 0).ownerRanks lineC2i (zeroed 0) clientDesc =
        some (askedRanks (g.server 0).rank (deTab.map DePtr.rank)) :=
      Option.map_eq_some_iff.2 ⟨_, hhash, rfl⟩
    have hupdatable : g.Updatable lineConf 0 clientDesc lineConf.defaultGdim
        (askedRanks 0 (deTab.map DePtr.rank)) (askedRanks (g.server 0).rank (deTab.map DePtr.rank)) := by
      rw [DrainGroup.Updatable, if_pos hself, hasked]
      intro r hr
      rw [List.mem_singleton.1 hr]
      exact hslot
    have hentry := (((drain_updates_entry_iff hspaces hversions).1 g g₁ g' 0 clientDesc [] _ _ deTab sfc _ _
      updates updates hok hlist hspace hhash hinDflt hturn (List.Perm.refl _) harrive).2 hupdatable).1
    exact ⟨g, g', hg, hg', hentry 0 (by rw [hasked]; exact List.mem_singleton_self _)⟩
  · have hlist : (upperRun []).map (fun g => g.drainList 0) = some [upperDesc] := rfl
    have hasked : (upperRun []).bind (fun g => (g.server 0).ownerRanks lineC2i (zeroed 0) upperDesc) =
        some [1] := by
      decide +kernel
    have hnet : (upperRun [.drain 0 (some fun _ => 0)]).map (fun g => g.net) =
        some [(.new, ⟨1, upperDesc, lineConf.defaultGdim⟩), DrainGroup.ownerUpdate 0 upperDesc 1] := rfl
    have hnet' : (upperRun [.drain 0 (some fun _ => 0), .deliver 0]).map (fun g =>
        (g.net, ((g.dfltTab 1).dhtFindExact upperDesc).isSome)) =
          some ([DrainGroup.ownerUpdate 0 upperDesc 1], true) := rfl
    have hdone : (upperRun [.drain 0 (some fun _ => 0), .deliver 0, .deliver 0]).map (fun g => g.net) =
        some [] := rfl
    rcases Option.map_eq_some_iff.1 hdone with ⟨g', hg', hdone⟩
    -- the states that the run goes through
    have hsteps := hg'
    rw [upperRun, DrainGroup.isRun.cons_eq_some_iff] at hsteps
    rcases hsteps with ⟨g, hput, hsteps⟩
    rw [DrainGroup.isRun.cons_eq_some_iff] at hsteps
    rcases hsteps with ⟨g₁, hdrain, hafter⟩
    have hsteps := hafter
    rw [DrainGroup.isRun.cons_eq_some_iff] at hsteps
    rcases hsteps with ⟨g₂, hfirst, -⟩
    have hg : upperRun [] = some g := DrainGroup.isRun.cons_eq_some_iff.2 ⟨g, hput, rfl⟩
    have hg₁ : upperRun [.drain 0 (some fun _ => 0)] = some g₁ :=
      DrainGroup.isRun.cons_eq_some_iff.2 ⟨g, hput, DrainGroup.isRun.cons_eq_some_iff.2 ⟨g₁, hdrain, rfl⟩⟩
    have hg₂ : upperRun [.drain 0 (some fun _ => 0), .deliver 0] = some g₂ :=
      DrainGroup.isRun.cons_eq_some_iff.2 ⟨g, hput, DrainGroup.isRun.cons_eq_some_iff.2
        ⟨g₁, hdrain, DrainGroup.isRun.cons_eq_some_iff.2 ⟨g₂, hfirst, rfl⟩⟩⟩
    rw [hg, Option.map_some, Option.some.injEq] at hlist
    rw [hg, Option.bind_some] at hasked
    rw [hg₁, Option.map_some, Option.some.injEq] at hnet
    rw [hg₂, Option.map_some, Option.some.injEq, Prod.mk.injEq] at hnet'
    -- the registration comes first, and the update finds it
    have hthrough : Runs.Along (fun es g => g.run lineC2i zeroed lineConf es)
        (DrainGroup.LetsThrough lineConf 0 upperDesc [1]) [.deliver 0, .deliver 0] g₁ := by
      refine DrainGroup.isRun.along_cons ?_ hfirst (DrainGroup.isRun.along_cons_iff.2 ⟨?_, fun g₃ _ => ?_⟩)
      · intro r hr
        rw [List.mem_singleton.1 hr, hnet]
        refine ⟨fun hno => absurd (List.mem_cons_of_mem _ List.mem_cons_self) hno, fun k hk hget => ?_⟩
        cases hk
        cases hget
      · intro r hr
        rw [List.mem_singleton.1 hr, hnet'.1]
        exact ⟨fun hno => absurd List.mem_cons_self hno, fun _ _ _ => hnet'.2⟩
      · exact Runs.along_nil _
    refine ⟨g', hg', ?_⟩
    have hstart := (drain_updates_entry_iff hspaces hversions).2 [.putLocal 0 upperDesc lineConf.defaultGdim] g hg
    refine hstart.1 0 upperDesc [] _ [1] (fun _ => 0) _ g₁ g' hself hlist hasked
      (fun h => absurd h (by decide)) hdrain hafter hthrough 1 (List.mem_singleton_self _) ?_
    rw [hdone]
    exact List.not_mem_nil

end DataSpaces
