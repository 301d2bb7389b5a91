import DataSpaces.Fetch
import DataSpaces.Query

/-!
# Proxy — data of remote groups (`query_remotes`, `get_rpc`)

A server with remotes answers a query for a name that it does not have with what a remote group returns.
It keeps the data in its proxy storage `ps` and gives the client a descriptor of it, which the client
fetches like any other.  Neither the descriptor nor the stored object has the name of the variable, so in
`ps` all variables look alike.
-/

namespace DataSpaces

/-! ## What a remote group is asked -/

/-- Two queries that call `dspaces_define_gdim` and `dspaces_get` with the same arguments. -/
structure SameCall (qOdsc qOdsc' : ObjDesc) (qGdim qGdim' : GlobalDimension) : Prop where
  name : qOdsc.name = qOdsc'.name
  version : qOdsc.version = qOdsc'.version
  size : qOdsc.size = qOdsc'.size
  bb : bboxEquals qOdsc.bb qOdsc'.bb = true
  gdim : qGdim.Same qGdim'

/-- A remote group knows of a query only what it is called with. -/
def OfCall (get : RemoteGet) : Prop :=
  ∀ qOdsc qOdsc' qGdim qGdim', SameCall qOdsc qOdsc' qGdim qGdim' → get qOdsc qGdim = get qOdsc' qGdim'

section Call

variable {q q' q'' : ObjDesc} {gdim gdim' gdim'' : GlobalDimension}

theorem SameCall.refl (q : ObjDesc) (gdim : GlobalDimension) : SameCall q q gdim gdim :=
  ⟨rfl, rfl, rfl, bboxEquals_refl _, rfl, fun _ _ => rfl⟩

theorem SameCall.symm (h : SameCall q q' gdim gdim') : SameCall q' q gdim' gdim :=
  ⟨h.name.symm, h.version.symm, h.size.symm, bboxEquals_symm h.bb, h.gdim.symm⟩

theorem SameCall.trans (h : SameCall q q' gdim gdim') (h' : SameCall q' q'' gdim' gdim'') :
    SameCall q q'' gdim gdim'' where
  name := h.name.trans h'.name
  version := h.version.trans h'.version
  size := h.size.trans h'.size
  bb := bboxEquals_trans h.bb h'.bb
  gdim := by
    refine ⟨h.gdim.1.trans h'.gdim.1, fun i hi => ?_⟩
    rw [h.gdim.2 i hi, h'.gdim.2 i (h.gdim.1 ▸ hi)]

end Call

/-! ## Two clients -/

/-- What a client asks for. -/
structure ProxyRequest where
  odsc : ObjDesc
  gdim : GlobalDimension
  timeout : Int

/-- A client queries, or fetches the descriptor that it was given. -/
inductive ProxyStep
  | query (client : Bool)
  | fetch (client : Bool)
  deriving DecidableEq

def ProxyStep.client : ProxyStep → Bool
  | .query client => client
  | .fetch client => client

/-- The group, the descriptors that the clients were given and the memory that was sent to them. -/
structure ProxyState where
  group : Group
  given : Bool → Option ObjDesc
  received : Bool → Option Buf

namespace ProxyState

section Run

variable (hilbertC2i : HilbertC2i) (uninit : Nat → Unwritten) (conf : Conf) (self : Nat) (req : Bool → ProxyRequest)
  (malloced : Bool → Buf)

def step (p : ProxyState) : ProxyStep → Option ProxyState
  | .query c => do
      let (odscs, g) ← getQueryOdscs hilbertC2i uninit conf p.group self (req c).odsc (req c).gdim
        (req c).timeout
      return { p with group := g, given := Function.update p.given c odscs.head? }
  | .fetch c => do
      -- the client goes on with the descriptor that it was given
      let odsc ← p.given c
      let sent ←
        match odsc.owner with
        | .server rank => (p.group.server rank).getRpc conf odsc (malloced c)
        | .client _ => none
        | .none => none
      return { p with received := Function.update p.received c (some sent) }

def run (p : ProxyState) (steps : List ProxyStep) : Option ProxyState :=
  steps.foldlM (step hilbertC2i uninit conf self req malloced) p

end Run

/-- Nobody has asked for anything yet. -/
def start (g : Group) : ProxyState :=
  ⟨g, fun _ => none, fun _ => none⟩

end ProxyState

/-- Each client queries once and then fetches once. -/
def Interleaving (steps : List ProxyStep) : Prop :=
  ∀ c, steps.filter (fun s => s.client == c) = [.query c, .fetch c]

/-- The client has received the bytes that the remote group returned for its query. -/
def Received (req : Bool → ProxyRequest) (bytes : Bool → Buf) (p : ProxyState) (c : Bool) : Prop :=
  ∃ sent, p.received c = some sent ∧
    HoldsBytes (req c).odsc.bb (req c).odsc.size.toNat
      (fun x k => bytes c ((req c).odsc.bb.offset x * (req c).odsc.size.toNat + k)) sent

/-- The descriptor of a proxied object. -/
def proxyDesc (self : Nat) (qOdsc : ObjDesc) : ObjDesc :=
  { name := [], st := qOdsc.st, flags := 0, tag := 0, type := 0, owner := .server self,
    version := qOdsc.version, bb := qOdsc.bb, size := qOdsc.size }

/-- The object that `query_remotes` stores. -/
def proxyObj (self : Nat) (qOdsc : ObjDesc) (buffer : Buf) : ObjData :=
  ⟨proxyDesc self qOdsc, ⟨0, Coord.ofFn fun _ => 0⟩, buffer⟩

/-- The versions of the queries share a bin of the proxy storage and their boxes intersect. -/
def Clash (ps : SsStorage) (qOdsc qOdsc' : ObjDesc) : Prop :=
  ps.index qOdsc = ps.index qOdsc' ∧
    (bboxDoesIntersect qOdsc.bb qOdsc'.bb = true ∨ bboxDoesIntersect qOdsc'.bb qOdsc.bb = true)

/-! ## One query and one fetch -/

theorem find?_eraseP_of_not {α : Type} {p q : α → Bool} {a : α} (l : List α) (ha : q a = false)
    (h : l.find? p = some a) : (l.eraseP q).find? p = some a := by
  induction l with
  | nil => cases h
  | cons b l ih =>
      rw [List.find?_cons] at h
      rw [List.eraseP_cons]
      by_cases hb : p b = true
      · simp only [hb, Option.some.injEq] at h
        subst h
        rw [ha]
        simp [hb]
      · simp only [hb] at h
        cases hq : q b with
        | true => simpa using h
        | false => simp [hb, ih h]

section Storage

variable {ps : SsStorage} {self : Nat} {q q' : ObjDesc} {buffer buffer' : Buf}

theorem objDescByNameIntersect_proxyDesc :
    objDescByNameIntersect (proxyDesc self q) (proxyDesc self q') = bboxDoesIntersect q.bb q'.bb := by
  simp [objDescByNameIntersect, proxyDesc]

theorem objDescEqualsIntersect_proxyDesc :
    objDescEqualsIntersect (proxyDesc self q) (proxyDesc self q') =
      (q.version == q'.version && bboxDoesIntersect q.bb q'.bb) := by
  simp [objDescEqualsIntersect, proxyDesc]

/-- What a fetch finds after a query: the new object if the version is the same and the boxes intersect,
else what is left of the bin. -/
theorem lsFind_lsAddObj_proxyObj :
    (ps.lsAddObj (proxyObj self q' buffer')).lsFind (proxyDesc self q) =
      if ps.index q = ps.index q' then
        if q.version == q'.version && bboxDoesIntersect q.bb q'.bb then some (proxyObj self q' buffer')
        else ((ps.objHash (ps.index q)).eraseP fun old =>
          objDescByNameIntersect (proxyDesc self q') old.objDesc).find? fun od =>
            objDescEqualsIntersect (proxyDesc self q) od.objDesc
      else ps.lsFind (proxyDesc self q) := by
  have hbin : ∀ o : ObjDesc, ps.index (proxyDesc self o) = ps.index o := fun _ => rfl
  have hobj : (proxyObj self q' buffer').objDesc = proxyDesc self q' := rfl
  rw [SsStorage.lsFind, SsStorage.index_lsAddObj, SsStorage.objHash_lsAddObj, hobj, hbin, hbin]
  split
  · rw [List.find?_cons, hobj, objDescEqualsIntersect_proxyDesc]
    cases q.version == q'.version && bboxDoesIntersect q.bb q'.bb <;> rfl
  · rfl

/-- A query for the same data puts the same data in front. -/
theorem lsFind_lsAddObj_of_same (hv : q.bb.Valid) (hversion : q.version = q'.version)
    (hbb : bboxEquals q.bb q'.bb = true) :
    (ps.lsAddObj (proxyObj self q' buffer')).lsFind (proxyDesc self q) =
      some (proxyObj self q' buffer') := by
  rcases hv.cells_nonempty with ⟨x, hx⟩
  have hx' : x ∈ q'.bb.cells := by
    rw [← cells_eq_of_bboxEquals hbb]
    exact hx
  have hmeet : bboxDoesIntersect q.bb q'.bb = true :=
    bboxDoesIntersect_of_mem (bboxEquals_iff.1 hbb).1 hv.dims hx hx'
  have hbin : ps.index q = ps.index q' := by rw [SsStorage.index, SsStorage.index, hversion]
  rw [lsFind_lsAddObj_proxyObj, if_pos hbin, if_pos]
  rw [hversion, hmeet]
  simp

/-- A query with which a client does not clash leaves it its object. -/
theorem lsFind_lsAddObj_of_not_clash (hclash : ¬ Clash ps q q')
    (hfind : ps.lsFind (proxyDesc self q) = some (proxyObj self q buffer)) :
    (ps.lsAddObj (proxyObj self q' buffer')).lsFind (proxyDesc self q) =
      some (proxyObj self q buffer) := by
  rw [lsFind_lsAddObj_proxyObj]
  split
  · next hbin =>
      have hapart := not_or.1 fun h => hclash ⟨hbin, h⟩
      have hkeep : objDescByNameIntersect (proxyDesc self q') (proxyDesc self q) = false := by
        rw [objDescByNameIntersect_proxyDesc]
        exact Bool.eq_false_iff.2 hapart.2
      rw [if_neg (by simp [hapart.1])]
      exact find?_eraseP_of_not _ hkeep hfind
  · exact hfind

/-- A query that evicts the object of a client leaves nothing of it. -/
theorem lsFind_lsAddObj_of_evicted (hbin : ps.index q = ps.index q')
    (hmeet : bboxDoesIntersect q'.bb q.bb = true) (other : Buf) :
    ((ps.lsAddObj (proxyObj self q buffer)).lsAddObj (proxyObj self q' buffer')).lsFind
        (proxyDesc self q) =
      ((ps.lsAddObj (proxyObj self q other)).lsAddObj (proxyObj self q' buffer')).lsFind
        (proxyDesc self q) := by
  have hrest : ∀ b : Buf, ((ps.lsAddObj (proxyObj self q b)).objHash (ps.index q)).eraseP
      (fun old => objDescByNameIntersect (proxyDesc self q') old.objDesc) =
        (ps.objHash (ps.index q)).eraseP fun old =>
          objDescByNameIntersect (proxyDesc self q) old.objDesc := by
    intro b
    have hvictim : objDescByNameIntersect (proxyDesc self q') (proxyObj self q b).objDesc = true :=
      objDescByNameIntersect_proxyDesc.trans hmeet
    have hown : ps.index q = ps.index (proxyObj self q b).objDesc := rfl
    rw [SsStorage.objHash_lsAddObj, if_pos hown, List.eraseP_cons, hvictim]
    rfl
  simp only [lsFind_lsAddObj_proxyObj, SsStorage.index_lsAddObj, hbin, if_true]
  rw [← hbin, hrest, hrest]

theorem lsLookup_isSome (hbins : 0 < ps.sizeHash) {odsc : ObjDesc} {od : ObjData}
    (hfind : ps.lsFind odsc = some od) : (ps.lsLookup odsc.name).isSome = true := by
  have hmem := List.mem_of_find?_eq_some hfind
  have hlike : objDescEqualsIntersect odsc od.objDesc = true := by
    simpa using List.find?_some hfind
  have hname := (objDescEqualsIntersect_iff.1 hlike).1
  rw [SsStorage.lsLookup, List.findSome?_isSome_iff]
  refine ⟨ps.index odsc, List.mem_range.2 (Nat.mod_lt _ hbins), ?_⟩
  rw [List.find?_isSome]
  exact ⟨od, hmem, by simp [hname]⟩

end Storage

/-! ## The memory that is sent -/

/-- A copy of a whole object. -/
theorem ssdCopy_same_box {toObj fromObj : ObjData}
    (hbb : bboxEquals toObj.objDesc.bb fromObj.objDesc.bb = true)
    (hto : toObj.objDesc.bb.InMemory toObj.objDesc.size.toNat) :
    ∃ r n, ssdCopy toObj fromObj = some (r, n) ∧
      ∀ x ∈ toObj.objDesc.bb.cells, ∀ k < toObj.objDesc.size.toNat,
        r.data (toObj.objDesc.bb.offset x * toObj.objDesc.size.toNat + k) =
          fromObj.data (toObj.objDesc.bb.offset x * toObj.objDesc.size.toNat + k) := by
  rcases bboxEquals_iff.1 hbb with ⟨hd, hc⟩
  have hcells := cells_eq_of_bboxEquals hbb
  -- equal boxes take the same memory
  have hfrom : fromObj.objDesc.bb.InMemory toObj.objDesc.size.toNat := by
    refine ⟨⟨⟨hd ▸ hto.valid.dims.1, hd ▸ hto.valid.dims.2⟩, fun i hi => ?_⟩, hcells ▸ hto.bytes,
      fun hzero i hi => ?_⟩
    · rw [← (hc i (hd ▸ hi)).1, ← (hc i (hd ▸ hi)).2]
      exact hto.valid.le i (hd ▸ hi)
    · rw [← (hc i (hd ▸ hi)).2]
      exact hto.bounded hzero i (hd ▸ hi)
  rcases hto.valid.cells_nonempty with ⟨x₀, hx₀⟩
  have hmeet : bboxDoesIntersect toObj.objDesc.bb fromObj.objDesc.bb = true :=
    bboxDoesIntersect_of_mem hd hto.valid.dims hx₀ (hcells ▸ hx₀)
  rcases ssdCopy_inMemory toObj fromObj hto hfrom hd (fun hten => (hc 9 (by omega)).1) hmeet with
    ⟨r, n, hcopy, hcopied⟩
  refine ⟨r, n, hcopy, fun x hx k hk => ?_⟩
  rw [hcopied.inside x (Finset.mem_inter.2 ⟨hx, hcells ▸ hx⟩) k hk,
    offset_congr hbb hto.valid.dims.2 x]

section Steps

variable {hilbertC2i : HilbertC2i} {uninit : Nat → Unwritten} {conf : Conf} {self : Nat} {req : Bool → ProxyRequest}
  {malloced : Bool → Buf} {remotes : List RemoteGet} {bytes : Bool → Buf}

/-- The server after a query that a remote group answers. -/
def Server.proxied (sv : Server) (qOdsc : ObjDesc) (buffer : Buf) : Server :=
  { sv with ps := sv.ps.lsAddObj (proxyObj sv.rank qOdsc buffer) }

theorem getQueryOdscs_remote (hremotes : conf.remotes = some remotes) {g : Group} {qOdsc : ObjDesc}
    {qGdim : GlobalDimension} (hlocal : (g.server self).ls.lsLookup qOdsc.name = none) {buffer : Buf}
    (hanswer : remotes.findSome? (fun get => get qOdsc qGdim) = some buffer) (timeout : Int) :
    getQueryOdscs hilbertC2i uninit conf g self qOdsc qGdim timeout =
      some ([proxyDesc (g.server self).rank qOdsc],
        g.setServer self ((g.server self).proxied qOdsc buffer)) := by
  have hresp : (g.server self).localResponsibility conf qOdsc = false := by
    simp [Server.localResponsibility, hremotes, hlocal]
  have hquery : (g.server self).queryRemotes conf qOdsc qGdim =
      ([proxyDesc (g.server self).rank qOdsc], (g.server self).proxied qOdsc buffer) := by
    rw [Server.queryRemotes, hremotes, Option.getD_some, hanswer]
    rfl
  simp only [getQueryOdscs, hresp, Bool.false_eq_true, if_false, hquery]
  rfl

theorem getRpc_of_lsFind (hremotes : conf.remotes = some remotes) {sv : Server} {odsc : ObjDesc}
    (hlookup : (sv.ps.lsLookup odsc.name).isSome = true) (m : Buf) :
    sv.getRpc conf odsc m = (sv.ps.lsFind odsc).bind fun fromObj =>
      (objDataAlloc odsc m).bind fun od => (ssdCopy od fromObj).map fun r => r.1.data := by
  rw [Server.getRpc, hremotes, hlookup]
  simp only [Option.isSome_some, Bool.and_self, if_true, Option.bind_eq_bind]
  cases sv.ps.lsFind odsc with
  | none => rfl
  | some fromObj =>
      rw [Option.bind_some, Option.bind_some]
      cases objDataAlloc odsc m with
      | none => rfl
      | some od =>
          rw [Option.bind_some, Option.bind_some]
          cases ssdCopy od fromObj <;> rfl

/-- What a query does that a remote group answers. -/
theorem exists_step_query (hremotes : conf.remotes = some remotes) {p : ProxyState} {c : Bool}
    (hrank : (p.group.server self).rank = self)
    (hlocal : (p.group.server self).ls.lsLookup (req c).odsc.name = none)
    (hanswer : remotes.findSome? (fun get => get (req c).odsc (req c).gdim) = some (bytes c)) :
    ∃ p', p.step hilbertC2i uninit conf self req malloced (.query c) = some p' ∧
      p'.given = Function.update p.given c (some (proxyDesc self (req c).odsc)) ∧
      p'.received = p.received ∧
      p'.group.server self = (p.group.server self).proxied (req c).odsc (bytes c) := by
  have hquery := @getQueryOdscs_remote hilbertC2i uninit conf self remotes hremotes p.group (req c).odsc
    (req c).gdim hlocal (bytes c) hanswer (req c).timeout
  refine ⟨{ p with
    group := p.group.setServer self ((p.group.server self).proxied (req c).odsc (bytes c))
    given := Function.update p.given c (some (proxyDesc self (req c).odsc)) }, ?_, rfl, rfl,
    Function.update_self _ _ _⟩
  simp only [ProxyState.step, hquery, hrank, Option.bind_eq_bind, Option.bind_some]
  rfl

theorem step_fetch {p : ProxyState} {c : Bool} {odsc : ObjDesc} {rank : Nat}
    (hgiven : p.given c = some odsc) (howner : odsc.owner = .server rank) :
    p.step hilbertC2i uninit conf self req malloced (.fetch c) =
      ((p.group.server rank).getRpc conf odsc (malloced c)).map fun sent =>
        { p with received := Function.update p.received c (some sent) } := by
  simp only [ProxyState.step, hgiven, howner, Option.bind_eq_bind, Option.bind_some]
  cases (p.group.server rank).getRpc conf odsc (malloced c) <;> rfl

/-- A fetch of the client finds its own object, or that of a client with the same query. -/
def Served (self : Nat) (req : Bool → ProxyRequest) (bytes : Bool → Buf) (ps : SsStorage) (c : Bool) :
    Prop :=
  ∃ c', SameCall (req c).odsc (req c').odsc (req c).gdim (req c').gdim ∧
    ps.lsFind (proxyDesc self (req c).odsc) = some (proxyObj self (req c').odsc (bytes c'))

/-- No query disturbs the other client. -/
def Apart (req : Bool → ProxyRequest) (ps : SsStorage) : Prop :=
  ¬ Clash ps (req true).odsc (req false).odsc ∨
    SameCall (req true).odsc (req false).odsc (req true).gdim (req false).gdim

theorem Clash.symm {ps : SsStorage} {q q' : ObjDesc} (h : Clash ps q q') : Clash ps q' q :=
  ⟨h.1.symm, h.2.symm⟩

theorem Apart.of_ne {ps : SsStorage} (h : Apart req ps) {c d : Bool} (hne : c ≠ d) :
    ¬ Clash ps (req c).odsc (req d).odsc ∨
      SameCall (req c).odsc (req d).odsc (req c).gdim (req d).gdim := by
  cases c <;> cases d
  · exact absurd rfl hne
  · exact h.imp (fun hc hc' => hc hc'.symm) SameCall.symm
  · exact h
  · exact absurd rfl hne

theorem Served.add {ps : SsStorage} {c : Bool} (h : Served self req bytes ps c)
    (hv : (req c).odsc.bb.Valid) (hapart : Apart req ps) (d : Bool) :
    Served self req bytes (ps.lsAddObj (proxyObj self (req d).odsc (bytes d))) c := by
  by_cases hsame : SameCall (req c).odsc (req d).odsc (req c).gdim (req d).gdim
  · exact ⟨d, hsame, lsFind_lsAddObj_of_same hv hsame.version hsame.bb⟩
  · have hne : c ≠ d := by
      rintro rfl
      exact hsame (SameCall.refl _ _)
    have hclash := (hapart.of_ne hne).resolve_right hsame
    rcases h with ⟨c', hcall, hfind⟩
    -- the object that is found is the client's own
    have hc' : c' = c := by
      by_contra hother
      have hd : c' = d := by
        cases c <;> cases c' <;> cases d <;> simp_all
      exact hsame (hd ▸ hcall)
    subst hc'
    exact ⟨c', hcall, lsFind_lsAddObj_of_not_clash hclash hfind⟩

/-- How far a run has come; `todo` is what the clients have still to do. -/
structure Progress (rank : Nat) (req : Bool → ProxyRequest) (bytes : Bool → Buf) (ps : SsStorage)
    (p : ProxyState) (todo : Bool → List ProxyStep) : Prop where
  ranked : (p.group.server rank).rank = rank
  bins : (p.group.server rank).ps.sizeHash = ps.sizeHash
  notLocal : ∀ c, (p.group.server rank).ls.lsLookup (req c).odsc.name = none
  phase : ∀ c, todo c = [.query c, .fetch c] ∨ todo c = [.fetch c] ∨ todo c = []
  served : ∀ c, todo c = [.fetch c] → p.given c = some (proxyDesc rank (req c).odsc) ∧
    Served rank req bytes (p.group.server rank).ps c
  received : ∀ c, todo c = [] → Received req bytes p c

variable {ps : SsStorage} {p : ProxyState} {todo : Bool → List ProxyStep}

/-- Whether queries clash depends on the number of bins only. -/
theorem Apart.congr {ps' : SsStorage} (h : Apart req ps) (hbins : ps'.sizeHash = ps.sizeHash) :
    Apart req ps' := by
  refine h.imp_left fun hclash hclash' => hclash ⟨?_, hclash'.2⟩
  have hbin := hclash'.1
  rw [SsStorage.index, SsStorage.index, hbins] at hbin
  exact hbin

section Holds

variable (hremotes : conf.remotes = some remotes)
  (hmem : ∀ c, (req c).odsc.bb.InMemory (req c).odsc.size.toNat)
  (hsmall : ∀ c, (req c).odsc.bb.cells.card * (req c).odsc.size.toNat < 2 ^ 31)
  (hcall : ∀ get ∈ remotes, OfCall get)
  (hanswer : ∀ c, remotes.findSome? (fun get => get (req c).odsc (req c).gdim) = some (bytes c))

include hcall hanswer in
/-- The same query has the same answer. -/
theorem bytes_eq_of_sameCall {c c' : Bool}
    (h : SameCall (req c).odsc (req c').odsc (req c).gdim (req c').gdim) : bytes c = bytes c' := by
  have hsame : remotes.findSome? (fun get => get (req c).odsc (req c).gdim) =
      remotes.findSome? fun get => get (req c').odsc (req c').gdim := by
    rw [← List.head?_filterMap, ← List.head?_filterMap,
      List.filterMap_congr fun get hget => hcall get hget _ _ _ _ h]
  rw [hanswer, hanswer, Option.some.injEq] at hsame
  exact hsame

include hremotes hmem hanswer in
theorem Progress.query (h : Progress self req bytes ps p todo) (hapart : Apart req ps) {c : Bool}
    {rest : List ProxyStep} (htodo : todo c = .query c :: rest) :
    ∃ p', p.step hilbertC2i uninit conf self req malloced (.query c) = some p' ∧
      Progress self req bytes ps p' (Function.update todo c rest) := by
  have hrest : rest = [.fetch c] := by
    rcases h.phase c with hc | hc | hc
    all_goals rw [hc] at htodo
    · exact (List.cons.inj htodo).2.symm
    · cases (List.cons.inj htodo).1
    · cases htodo
  -- the reply to the query is stored, and the client is given a descriptor of this server
  rcases @exists_step_query hilbertC2i uninit conf self req malloced remotes bytes hremotes p c h.ranked
    (h.notLocal c) (hanswer c) with ⟨p', hstep, hgiven', hreceived, hself⟩
  have hps : (p'.group.server self).ps =
      (p.group.server self).ps.lsAddObj (proxyObj self (req c).odsc (bytes c)) := by
    rw [hself, Server.proxied, h.ranked]
  refine ⟨p', hstep, ⟨?_, ?_, fun d => ?_, fun d => ?_, fun d hd => ?_, fun d hd => ?_⟩⟩
  · rw [hself]
    exact h.ranked
  · rw [hps]
    exact h.bins
  · rw [hself]
    exact h.notLocal d
  · by_cases hdc : d = c
    · subst hdc
      rw [Function.update_self, hrest]
      exact Or.inr (Or.inl rfl)
    · rw [Function.update_of_ne hdc]
      exact h.phase d
  · rw [hgiven', hps]
    by_cases hdc : d = c
    · subst hdc
      refine ⟨Function.update_self _ _ _, d, SameCall.refl _ _, ?_⟩
      exact lsFind_lsAddObj_of_same (hmem d).valid rfl (bboxEquals_refl _)
    · rw [Function.update_of_ne hdc] at hd ⊢
      -- what the other client was given is still found: the two objects do not clash
      rcases h.served d hd with ⟨hgiven, hserved⟩
      exact ⟨hgiven, hserved.add (hmem d).valid (hapart.congr h.bins) c⟩
  · by_cases hdc : d = c
    · subst hdc
      rw [Function.update_self, hrest] at hd
      cases hd
    · rw [Function.update_of_ne hdc] at hd
      rcases h.received d hd with ⟨sent, hsent, hright⟩
      exact ⟨sent, by rw [hreceived]; exact hsent, hright⟩

include hremotes hmem hsmall hcall hanswer in
theorem Progress.fetch (h : Progress self req bytes ps p todo) (hbins : 0 < ps.sizeHash) {c : Bool}
    {rest : List ProxyStep} (htodo : todo c = .fetch c :: rest) :
    ∃ p', p.step hilbertC2i uninit conf self req malloced (.fetch c) = some p' ∧
      Progress self req bytes ps p' (Function.update todo c rest) := by
  have hphase : todo c = [.fetch c] := by
    rcases h.phase c with hc | hc | hc
    · rw [hc] at htodo
      cases (List.cons.inj htodo).1
    · exact hc
    · rw [hc] at htodo
      cases htodo
  have hrest : rest = [] := by
    rw [hphase] at htodo
    exact (List.cons.inj htodo).2.symm
  rcases h.served c hphase with ⟨hgiven, c', hsame, hfind⟩
  have hlookup := lsLookup_isSome (by rw [h.bins]; exact hbins) hfind
  -- the object that is found has the box of the query
  rcases @ssdCopy_same_box (objDataAllocNoData (proxyDesc self (req c).odsc) (malloced c))
    (proxyObj self (req c').odsc (bytes c')) hsame.bb (hmem c) with ⟨r, n, hcopy, hbytes⟩
  have hrpc : (p.group.server self).getRpc conf (proxyDesc self (req c).odsc) (malloced c) =
      some r.data := by
    rw [getRpc_of_lsFind hremotes hlookup, hfind, Option.bind_some,
      @objDataAlloc_eq (proxyDesc self (req c).odsc) (hmem c).valid (hsmall c), Option.bind_some, hcopy]
    rfl
  refine ⟨{ p with received := Function.update p.received c (some r.data) },
    by rw [step_fetch hgiven rfl, hrpc]; rfl, ⟨h.ranked, h.bins, h.notLocal, fun d => ?_, fun d hd => ?_, fun d hd => ?_⟩⟩
  · by_cases hdc : d = c
    · subst hdc
      rw [Function.update_self, hrest]
      exact Or.inr (Or.inr rfl)
    · rw [Function.update_of_ne hdc]
      exact h.phase d
  · by_cases hdc : d = c
    · subst hdc
      rw [Function.update_self, hrest] at hd
      cases hd
    · rw [Function.update_of_ne hdc] at hd
      exact h.served d hd
  · by_cases hdc : d = c
    · subst hdc
      refine ⟨r.data, Function.update_self _ _ _, fun x hx k hk => ?_⟩
      rw [bytes_eq_of_sameCall hcall hanswer hsame]
      exact hbytes x hx k hk
    · rw [Function.update_of_ne hdc] at hd
      rcases h.received d hd with ⟨sent, hsent, hright⟩
      refine ⟨sent, ?_, hright⟩
      simp only [Function.update_of_ne hdc]
      exact hsent

include hremotes hmem hsmall hcall hanswer in
/-- In every interleaving of what is left to do each client gets its bytes. -/
theorem Progress.run (hapart : Apart req ps) (hbins : 0 < ps.sizeHash) (steps : List ProxyStep) :
    ∀ p todo, Progress self req bytes ps p todo →
      (∀ c, steps.filter (fun s => s.client == c) = todo c) →
      ∃ p', p.run hilbertC2i uninit conf self req malloced steps = some p' ∧
        ∀ c, Received req bytes p' c := by
  induction steps with
  | nil =>
      intro p todo h htodo
      exact ⟨p, rfl, fun c => h.received c (htodo c).symm⟩
  | cons s steps ih =>
      intro p todo h htodo
      -- the step is the next one of its client
      have hmine : todo s.client = s :: steps.filter fun s' => s'.client == s.client := by
        rw [← htodo s.client, List.filter_cons_of_pos (by simp)]
      have hstep : ∃ p', p.step hilbertC2i uninit conf self req malloced s = some p' ∧
          Progress self req bytes ps p'
            (Function.update todo s.client (steps.filter fun s' => s'.client == s.client)) := by
        cases s with
        | query c => exact h.query hremotes hmem hanswer hapart hmine
        | fetch c => exact h.fetch hremotes hmem hsmall hcall hanswer hbins hmine
      rcases hstep with ⟨p₁, hstep, h₁⟩
      -- and takes nothing from the other one
      have hleft : ∀ c, steps.filter (fun s' => s'.client == c) =
          Function.update todo s.client (steps.filter fun s' => s'.client == s.client) c := by
        intro c
        by_cases hc : c = s.client
        · rw [hc, Function.update_self]
        · rw [Function.update_of_ne hc, ← htodo c, List.filter_cons_of_neg]
          simpa using fun h => hc h.symm
      rcases ih p₁ _ h₁ hleft with ⟨p', hrun, hright⟩
      refine ⟨p', ?_, hright⟩
      rw [ProxyState.run, List.foldlM_cons, hstep]
      exact hrun

end Holds

/-! ## Every interleaving -/

/-- Whatever the remote groups hold and in whatever order the steps are taken, each client receives the
bytes for its query. -/
def AlwaysReceived (hilbertC2i : HilbertC2i) (uninit : Nat → Unwritten) (conf : Conf) (self : Nat)
    (req : Bool → ProxyRequest) (g : Group) : Prop :=
  ∀ (remotes : List RemoteGet) (bytes : Bool → Buf), (∀ get ∈ remotes, OfCall get) →
    (∀ c, remotes.findSome? (fun get => get (req c).odsc (req c).gdim) = some (bytes c)) →
    ∀ steps, Interleaving steps → ∀ malloced,
      ∃ p, (ProxyState.start g).run hilbertC2i uninit { conf with remotes := some remotes } self req
        malloced steps = some p ∧ ∀ c, Received req bytes p c

/-- What the first client is sent if it fetches after the second one has queried. -/
theorem sent_after_queries (hremotes : conf.remotes = some remotes)
    (hanswer : ∀ e, remotes.findSome? (fun get => get (req e).odsc (req e).gdim) = some (bytes e))
    {g : Group} (hrank : (g.server self).rank = self) (hbins : 0 < (g.server self).ps.sizeHash)
    (hlocal : ∀ e, (g.server self).ls.lsLookup (req e).odsc.name = none) {c d : Bool} (hne : c ≠ d)
    (hv : (req d).odsc.bb.Valid)
    (hrun : (ProxyState.start g).run hilbertC2i uninit conf self req malloced
      [.query c, .query d, .fetch c, .fetch d] = some p) {sent : Buf} (hsent : p.received c = some sent) :
    ((((g.server self).ps.lsAddObj (proxyObj self (req c).odsc (bytes c))).lsAddObj
        (proxyObj self (req d).odsc (bytes d))).lsFind (proxyDesc self (req c).odsc)).bind (fun fromObj =>
      (objDataAlloc (proxyDesc self (req c).odsc) (malloced c)).bind fun od =>
        (ssdCopy od fromObj).map fun r => r.1.data) = some sent := by
  -- the two queries
  rcases @exists_step_query hilbertC2i uninit conf self req malloced remotes bytes hremotes
    (ProxyState.start g) c hrank (hlocal c) (hanswer c) with ⟨p₁, hstep₁, hgiven₁, -, hself₁⟩
  have hrank₁ : (p₁.group.server self).rank = self := by
    rw [hself₁]
    exact hrank
  rcases @exists_step_query hilbertC2i uninit conf self req malloced remotes bytes hremotes
    p₁ d hrank₁ (by rw [hself₁]; exact hlocal d) (hanswer d) with ⟨p₂, hstep₂, hgiven₂, -, hself₂⟩
  have hps : (p₂.group.server self).ps =
      ((g.server self).ps.lsAddObj (proxyObj self (req c).odsc (bytes c))).lsAddObj
        (proxyObj self (req d).odsc (bytes d)) := by
    rw [hself₂, Server.proxied, hrank₁, hself₁, Server.proxied]
    exact congrArg (fun r => ((g.server self).ps.lsAddObj (proxyObj r (req c).odsc (bytes c))).lsAddObj
      (proxyObj self (req d).odsc (bytes d))) hrank
  have hgiven : p₂.given c = some (proxyDesc self (req c).odsc) := by
    rw [hgiven₂, Function.update_of_ne hne, hgiven₁, Function.update_self]
  -- the object of the second client is in the storage
  have hlookup : ((p₂.group.server self).ps.lsLookup (proxyDesc self (req c).odsc).name).isSome = true := by
    have hfind : (p₂.group.server self).ps.lsFind (proxyDesc self (req d).odsc) =
        some (proxyObj self (req d).odsc (bytes d)) := by
      rw [hps]
      exact lsFind_lsAddObj_of_same hv rfl (bboxEquals_refl _)
    have hsome := lsLookup_isSome (by rw [hps]; exact hbins) hfind
    exact hsome
  rw [ProxyState.run, List.foldlM_cons, hstep₁, Option.bind_eq_bind, Option.bind_some, List.foldlM_cons,
    hstep₂, Option.bind_eq_bind, Option.bind_some, List.foldlM_cons, step_fetch hgiven rfl,
    getRpc_of_lsFind hremotes hlookup, hps] at hrun
  rcases Option.bind_eq_some_iff.1 hrun with ⟨p₃, hfetch, hrun⟩
  rcases Option.map_eq_some_iff.1 hfetch with ⟨sent', hcopy, rfl⟩
  rw [hcopy]
  rcases Option.bind_eq_some_iff.1 hrun with ⟨p₄, hfetch', hlast⟩
  cases hlast
  -- the other fetch leaves what the first client has received
  have hgiven' : ({ p₂ with received := Function.update p₂.received c (some sent') } : ProxyState).given d =
      some (proxyDesc self (req d).odsc) := by
    rw [hgiven₂, Function.update_self]
  rw [step_fetch hgiven' rfl] at hfetch'
  rcases Option.map_eq_some_iff.1 hfetch' with ⟨other, -, rfl⟩
  simp only [Function.update_of_ne hne, Function.update_self] at hsent
  exact hsent

/-- The object of a client is evicted by the query of the other one. -/
theorem not_alwaysReceived {g : Group} (hrank : (g.server self).rank = self)
    (hbins : 0 < (g.server self).ps.sizeHash)
    (hmem : ∀ e, (req e).odsc.bb.InMemory (req e).odsc.size.toNat)
    (hlocal : ∀ e, (g.server self).ls.lsLookup (req e).odsc.name = none) {c d : Bool} (hne : c ≠ d)
    (hsize : (req c).odsc.size ≠ 0)
    (hbin : (g.server self).ps.index (req c).odsc = (g.server self).ps.index (req d).odsc)
    (hmeet : bboxDoesIntersect (req d).odsc.bb (req c).odsc.bb = true)
    (hcall : ¬ SameCall (req c).odsc (req d).odsc (req c).gdim (req d).gdim) :
    ¬ AlwaysReceived hilbertC2i uninit conf self req g := by
  classical
  intro hall
  have hclient : ∀ e, e = c ∨ e = d := by
    intro e
    cases e <;> cases c <;> cases d <;> simp_all
  have hinter : Interleaving [.query c, .query d, .fetch c, .fetch d] := by
    intro e
    rcases hclient e with rfl | rfl
    · simp [ProxyStep.client, hne.symm]
    · simp [ProxyStep.client, hne]
  -- a remote group that has the byte `b` everywhere for the first query and `0` for all others
  have hget : ∀ b : UInt8, ∃ (get : RemoteGet) (bytes : Bool → Buf), OfCall get ∧
      (∀ e, [get].findSome? (fun get => get (req e).odsc (req e).gdim) = some (bytes e)) ∧
      (bytes c = fun _ => b) ∧ bytes d = fun _ => 0 := by
    intro b
    refine ⟨fun q gdim => some fun _ => if SameCall (req c).odsc q (req c).gdim gdim then b else 0,
      fun e _ => if SameCall (req c).odsc (req e).odsc (req c).gdim (req e).gdim then b else 0,
      fun q q' gdim gdim' hsame => ?_, fun e => ?_, ?_, ?_⟩
    · have hiff : SameCall (req c).odsc q (req c).gdim gdim ↔
          SameCall (req c).odsc q' (req c).gdim gdim' :=
        ⟨fun h => h.trans hsame, fun h => h.trans hsame.symm⟩
      simp only [hiff]
    · simp
    · simp [SameCall.refl]
    · simp [hcall]
  rcases (hmem c).valid.cells_nonempty with ⟨x, hx⟩
  have hpos : 0 < (req c).odsc.size.toNat := by
    rcases Nat.eq_zero_or_pos (req c).odsc.size.toNat with h | h
    · exact absurd (UInt64.toNat_inj.1 h) hsize
    · exact h
  -- what is sent does not depend on the byte
  have hsent : ∀ b : UInt8, ∃ sent : Buf,
      ((((g.server self).ps.lsAddObj (proxyObj self (req c).odsc fun _ => 0)).lsAddObj
        (proxyObj self (req d).odsc fun _ => 0)).lsFind (proxyDesc self (req c).odsc)).bind (fun fromObj =>
          (objDataAlloc (proxyDesc self (req c).odsc) fun _ => 0).bind fun od =>
            (ssdCopy od fromObj).map fun r => r.1.data) = some sent ∧
        sent ((req c).odsc.bb.offset x * (req c).odsc.size.toNat + 0) = b := by
    intro b
    rcases hget b with ⟨get, bytes, hof, hanswer, hc, hd⟩
    rcases hall [get] bytes (by simpa using hof) hanswer _ hinter fun _ _ => 0 with ⟨p, hrun, hright⟩
    rcases hright c with ⟨sent, hreceived, hbytes⟩
    have hfound := sent_after_queries rfl hanswer hrank hbins hlocal hne (hmem d).valid hrun hreceived
    rw [hd, lsFind_lsAddObj_of_evicted hbin hmeet fun _ => 0] at hfound
    refine ⟨sent, hfound, ?_⟩
    have hbyte := hbytes x hx 0 hpos
    simp only [hc] at hbyte
    exact hbyte
  rcases hsent 0 with ⟨sent, hsent₀, hzero⟩
  rcases hsent 1 with ⟨sent', hsent₁, hone⟩
  rw [hsent₀, Option.some.injEq] at hsent₁
  rw [← hsent₁, hzero] at hone
  exact absurd hone (by decide)

/-- A fetch of 2 GiB gets no memory. -/
theorem small_of_alwaysReceived {g : Group} (hrank : (g.server self).rank = self)
    (hbins : 0 < (g.server self).ps.sizeHash)
    (hmem : ∀ e, (req e).odsc.bb.InMemory (req e).odsc.size.toNat)
    (hlocal : ∀ e, (g.server self).ls.lsLookup (req e).odsc.name = none)
    (h : AlwaysReceived hilbertC2i uninit conf self req g) (c : Bool) :
    (req c).odsc.bb.cells.card * (req c).odsc.size.toNat < 2 ^ 31 := by
  have hne : c ≠ !c := (Bool.not_ne_self c).symm
  have hinter : Interleaving [.query c, .query !c, .fetch c, .fetch !c] := by
    intro e
    cases c <;> cases e <;> rfl
  obtain ⟨p, hrun, hright⟩ := h [fun _ _ => some fun _ => 0] (fun _ _ => 0)
    (by simp [OfCall]) (fun _ => rfl) _ hinter fun _ _ => 0
  obtain ⟨sent, hreceived, -⟩ := hright c
  have hfound := sent_after_queries rfl (fun _ => rfl) hrank hbins hlocal hne (hmem !c).valid hrun hreceived
  obtain ⟨fromObj, -, halloc⟩ := Option.bind_eq_some_iff.1 hfound
  obtain ⟨od, halloc, -⟩ := Option.bind_eq_some_iff.1 halloc
  have hbytes := (objDataAlloc_some halloc).2
  rwa [@toNat_objDataSize (proxyDesc self (req c).odsc) (hmem c).valid (hmem c).bytes] at hbytes

end Steps

/-- Two clients query data that is not stored at a server with remotes and fetch what they are given.  If
both ask for less than 2 GiB and the queries do not share a bin with intersecting boxes, or ask the remotes
for the same, then each client receives its bytes in every interleaving; and only then, when there are
bytes. -/
theorem proxied_received_iff {hilbertC2i : HilbertC2i} {uninit : Nat → Unwritten} {conf : Conf} {self : Nat}
    {req : Bool → ProxyRequest} {g : Group} (hrank : (g.server self).rank = self)
    (hbins : 0 < (g.server self).ps.sizeHash)
    (hmem : ∀ c, (req c).odsc.bb.InMemory (req c).odsc.size.toNat)
    (hlocal : ∀ c, (g.server self).ls.lsLookup (req c).odsc.name = none) :
    (Apart req (g.server self).ps ∧
        (∀ c, (req c).odsc.bb.cells.card * (req c).odsc.size.toNat < 2 ^ 31) →
          AlwaysReceived hilbertC2i uninit conf self req g) ∧
      ((∀ c, (req c).odsc.size ≠ 0) →
        (AlwaysReceived hilbertC2i uninit conf self req g ↔ Apart req (g.server self).ps ∧
          ∀ c, (req c).odsc.bb.cells.card * (req c).odsc.size.toNat < 2 ^ 31)) := by
  have hsuff : Apart req (g.server self).ps ∧
      (∀ c, (req c).odsc.bb.cells.card * (req c).odsc.size.toNat < 2 ^ 31) →
        AlwaysReceived hilbertC2i uninit conf self req g := by
    intro ⟨hapart, hsmall⟩ remotes bytes hcall hanswer steps hsteps malloced
    have hstart : Progress self req bytes (g.server self).ps (ProxyState.start g)
        fun c => [.query c, .fetch c] := by
      refine ⟨hrank, rfl, hlocal, fun c => Or.inl rfl, fun c hc => ?_, fun c hc => ?_⟩
      · cases (List.cons.inj hc).1
      · cases hc
    exact Progress.run rfl hmem hsmall hcall hanswer hapart hbins steps _ _ hstart hsteps
  refine ⟨hsuff, fun hsize => ⟨fun hall => ⟨?_, small_of_alwaysReceived hrank hbins hmem hlocal hall⟩, hsuff⟩⟩
  by_contra hnot
  rw [Apart, not_or, not_not] at hnot
  rcases hnot with ⟨⟨hbin, hmeet⟩, hcall⟩
  -- one of the two finds what the other one has queried
  rcases hmeet with hmeet | hmeet
  · exact not_alwaysReceived hrank hbins hmem hlocal Bool.false_ne_true (hsize false) hbin.symm hmeet
      (fun h => hcall h.symm) hall
  · exact not_alwaysReceived hrank hbins hmem hlocal Bool.false_ne_true.symm (hsize true) hbin hmeet hcall
      hall

/-! ### Two variables of a remote group -/

/-- A remote group whose variables have the first letter of their name everywhere. -/
def letterRemote : RemoteGet := fun qOdsc _ => some fun _ => qOdsc.name.headD 0

/-- One client queries the variable `a` and the other one `b`, both in version 0. -/
def letterReq (bb bb' : BBox) (c : Bool) : ProxyRequest :=
  ⟨{ plainDesc 0 (if c then bb else bb') with name := [if c then 97 else 98] }, lineConf.defaultGdim, 0⟩

def letterBytes (c : Bool) : Buf := fun _ => if c then 97 else 98

theorem ofCall_letterRemote : ∀ get ∈ [letterRemote], OfCall get := by
  intro get hget q q' gdim gdim' hsame
  rw [List.mem_singleton.1 hget, letterRemote, letterRemote, hsame.name]

theorem letterRemote_answers (bb bb' : BBox) (c : Bool) :
    [letterRemote].findSome? (fun get => get (letterReq bb bb' c).odsc (letterReq bb bb' c).gdim) =
      some (letterBytes c) := by
  cases c <;> rfl

/-- The client that queried `a` receives `b`, which the other client has queried since. -/
theorem proxied_mixed_up :
    (∀ get ∈ [letterRemote], OfCall get) ∧
      (∀ c, [letterRemote].findSome? (fun get => get (letterReq (BBox.line 0 1) (BBox.line 0 1) c).odsc
        (letterReq (BBox.line 0 1) (BBox.line 0 1) c).gdim) = some (letterBytes c)) ∧
      Interleaving [.query true, .query false, .fetch true, .fetch false] ∧
      ∃ p, (ProxyState.start (Group.init lineConf fun _ => lineSpaceV2)).run lineC2i zeroed
          { lineConf with remotes := some [letterRemote] } 0
          (letterReq (BBox.line 0 1) (BBox.line 0 1)) (fun _ _ => 0)
          [.query true, .query false, .fetch true, .fetch false] = some p ∧
        ¬ Received (letterReq (BBox.line 0 1) (BBox.line 0 1)) letterBytes p true ∧
        ∃ sent, p.received true = some sent ∧ sent 0 = 98 := by
  have hrun : ((ProxyState.start (Group.init lineConf fun _ => lineSpaceV2)).run lineC2i zeroed
      { lineConf with remotes := some [letterRemote] } 0
      (letterReq (BBox.line 0 1) (BBox.line 0 1)) (fun _ _ => 0)
      [.query true, .query false, .fetch true, .fetch false]).bind (fun p =>
        (p.received true).map fun sent => sent 0) = some 98 := by
    decide +kernel
  rcases Option.bind_eq_some_iff.1 hrun with ⟨p, hp, hrun⟩
  rcases Option.map_eq_some_iff.1 hrun with ⟨sent, hsent, hbyte⟩
  have hinter : Interleaving [.query true, .query false, .fetch true, .fetch false] := by
    intro c
    cases c <;> rfl
  refine ⟨ofCall_letterRemote, letterRemote_answers _ _, hinter, p, hp, ?_, sent, hsent, hbyte⟩
  rintro ⟨sent', hsent', hright⟩
  rw [hsent, Option.some.injEq] at hsent'
  have hcell : (fun _ => 0 : Cell) ∈ (BBox.line 0 1).cells := by
    decide
  have hoffset : (BBox.line 0 1).offset (fun _ => 0) = 0 := by
    decide
  -- its own first byte is `a`
  have hfirst : sent' ((BBox.line 0 1).offset (fun _ => 0) * 1 + 0) = 97 :=
    hright (fun _ => 0) hcell 0 (by decide)
  rw [hoffset, ← hsent', hbyte] at hfirst
  exact absurd hfirst (by decide)

theorem inMemory_line {lo hi : UInt64} (hle : lo ≤ hi) (hlt : hi.toNat + 1 < 2 ^ 64) :
    (BBox.line lo hi).InMemory 1 := by
  refine ⟨BBox.line_valid hle, ?_, fun h => absurd h (by decide)⟩
  rw [card_line]
  omega

/-- Two variables in boxes that do not meet. -/
theorem proxied_received_iff_apart :
    AlwaysReceived lineC2i zeroed lineConf 0 (letterReq (BBox.line 0 0) (BBox.line 1 1))
      (Group.init lineConf fun _ => lineSpaceV2) := by
  refine (proxied_received_iff rfl (by decide) (fun c => ?_) (fun c => ?_)).1 ⟨Or.inl ?_, fun c => ?_⟩
  · cases c
    · exact inMemory_line (by decide) (by decide)
    · exact inMemory_line (by decide) (by decide)
  · cases c <;> rfl
  · rintro ⟨-, hmeet⟩
    revert hmeet
    decide
  · cases c
    all_goals
      change (BBox.line _ _).cells.card * 1 < 2 ^ 31
      rw [card_line]
      decide

end DataSpaces
