import DataSpaces.RoutedQuery
import DataSpaces.SpaceLookup

/-!
# RoutedAnswer — no server waits for an array

A server looks the space of the query up before it calls the module, and no space that a server has goes away.
So whatever happens after it has put the array into its storage, it finds the table again, and in the table what
it needs to answer.
-/

namespace DataSpaces

/-! ## The spaces of a server stay -/

/-- The server has a space for all global dimensions that it had one for. -/
def Server.KeepsSpaces (sv sv' : Server) : Prop :=
  ∀ gdim, (sv.findSspace gdim).isSome → (sv'.findSspace gdim).isSome

def Group.KeepsSpaces (g g' : Group) : Prop :=
  ∀ r, (g.server r).KeepsSpaces (g'.server r)

section Spaces

variable {hilbertC2i : HilbertC2i} {uninit : Unwritten} {conf : Conf} {sv sv' sv'' : Server}
  {gdim : GlobalDimension} {e : SpaceEntry}

/-- After a lookup the server has the space. -/
theorem Server.isSome_findSspace_lookup
    (h : Server.lookupSspace hilbertC2i uninit conf sv gdim = some (sv', e)) :
    (sv'.findSspace gdim).isSome := by
  rw [Server.lookupSspace] at h
  split at h
  · next e' hfind =>
      cases h
      rw [hfind]
      rfl
  · obtain ⟨ssd, -, h⟩ := Option.map_eq_some_iff.1 h
    cases h
    have hself : (gdim.ndim == gdim.ndim && globalDimensionEqual gdim gdim) = true :=
      listed_iff.2 ⟨rfl, fun _ _ => rfl⟩
    rw [Server.findSspace, List.find?_cons, hself]
    split
    · rfl
    · rfl

namespace Server.KeepsSpaces

theorem refl (sv : Server) : sv.KeepsSpaces sv :=
  fun _ h => h

theorem trans (h : sv.KeepsSpaces sv') (h' : sv'.KeepsSpaces sv'') : sv.KeepsSpaces sv'' :=
  fun gdim hsome => h' gdim (h gdim hsome)

theorem congr (hdflt : sv'.dflt = sv.dflt) (hlist : sv'.sspaceList = sv.sspaceList) : sv.KeepsSpaces sv' := by
  intro gdim hsome
  rwa [findSspace, hdflt, hlist]

theorem lookup (h : lookupSspace hilbertC2i uninit conf sv gdim = some (sv', e)) : sv.KeepsSpaces sv' := by
  intro gdim' hsome
  obtain ⟨e', he'⟩ := Option.isSome_iff_exists.1 hsome
  rw [findSspace_lookupSspace h he']
  rfl

/-- Another table changes no global dimensions. -/
theorem setEntSelf (sv : Server) (id : Nat) (table : DhtTable) : sv.KeepsSpaces (sv.setEntSelf id table) := by
  intro gdim hsome
  rw [findSspace] at hsome ⊢
  -- the entry that is found may have another table, but it is found
  simp only [Server.setEntSelf, SpaceEntry.gdim_setEntSelf, List.find?_map, Function.comp_def]
  split
  · rfl
  · next hd =>
      rw [if_neg hd] at hsome
      rw [Option.isSome_map]
      exact hsome

theorem objUpdateLocalDht {odsc : ObjDesc}
    (h : Server.objUpdateLocalDht hilbertC2i uninit sv e odsc = some sv') : sv.KeepsSpaces sv' := by
  obtain ⟨r, -, rfl⟩ := Option.map_eq_some_iff.1 h
  exact setEntSelf sv _ _

theorem distribute {odsc : ObjDesc} (ranks : List Nat) :
    ∀ {sv sv' : Server} {msgs : List UpdateMsg},
      Server.distribute hilbertC2i uninit odsc gdim e ranks sv = some (sv', msgs) → sv.KeepsSpaces sv' := by
  induction ranks with
  | nil =>
      intro sv sv' msgs h
      cases h
      exact refl sv
  | cons rank ranks ih =>
      intro sv sv' msgs h
      rw [Server.distribute] at h
      split at h
      · obtain ⟨sv₁, hlocal, h⟩ := Option.bind_eq_some_iff.1 h
        exact (objUpdateLocalDht hlocal).trans (ih h)
      · obtain ⟨⟨sv₁, msgs₁⟩, hrest, h⟩ := Option.bind_eq_some_iff.1 h
        cases h
        exact ih hrest

theorem objUpdateDht {odsc : ObjDesc} {msgs : List UpdateMsg}
    (h : Server.objUpdateDht hilbertC2i uninit conf sv odsc gdim = some (sv', msgs)) : sv.KeepsSpaces sv' := by
  obtain ⟨⟨sv₁, e⟩, hlook, h⟩ := Option.bind_eq_some_iff.1 h
  obtain ⟨⟨dhtTab, sfc⟩, -, h⟩ := Option.bind_eq_some_iff.1 h
  have hcache : sv₁.KeepsSpaces { sv₁ with sfcHash := sfc } := congr rfl rfl
  have hfirst := (lookup hlook).trans hcache
  dsimp only at h
  split at h
  · obtain ⟨sv₂, hlocal, h⟩ := Option.bind_eq_some_iff.1 h
    cases h
    exact hfirst.trans (objUpdateLocalDht hlocal)
  · exact hfirst.trans (distribute _ h)

end Server.KeepsSpaces

end Spaces

namespace Group.KeepsSpaces

variable {hilbertC2i : HilbertC2i} {uninit : Nat → Unwritten} {conf : Conf} {mods : List DsModule}
  {sv : Server} {gdim : GlobalDimension} {e : SpaceEntry} {g g' g'' : Group}

theorem refl (g : Group) : g.KeepsSpaces g :=
  fun r => Server.KeepsSpaces.refl (g.server r)

theorem trans (h : g.KeepsSpaces g') (h' : g'.KeepsSpaces g'') : g.KeepsSpaces g'' :=
  fun r => (h r).trans (h' r)

/-- One server changes. -/
theorem setServer {rank : Nat} (h : (g.server rank).KeepsSpaces sv) (net : List UpdateMsg) :
    g.KeepsSpaces { g.setServer rank sv with net := net } := by
  intro r
  simp only [Group.setServer, Function.update_apply]
  split
  · next hr => exact hr ▸ h
  · exact Server.KeepsSpaces.refl _

theorem askPeers {self : Nat} {qOdsc : ObjDesc} {timeout : Int} (ranks : List Nat) :
    ∀ {g g' : Group} {tabs : List (List ObjDesc)},
      DataSpaces.askPeers hilbertC2i uninit conf self e qOdsc gdim timeout ranks g = some (tabs, g') →
        g.KeepsSpaces g' := by
  induction ranks with
  | nil =>
      intro g g' tabs h
      cases h
      exact refl g
  | cons rank ranks ih =>
      intro g g' tabs h
      rw [DataSpaces.askPeers] at h
      split at h
      · obtain ⟨odscs, -, h⟩ := Option.bind_eq_some_iff.1 h
        obtain ⟨⟨tabs', g₁⟩, hrest, h⟩ := Option.bind_eq_some_iff.1 h
        cases h
        exact ih hrest
      · obtain ⟨⟨odscs, sv⟩, hrpc, h⟩ := Option.bind_eq_some_iff.1 h
        obtain ⟨⟨tabs', g₁⟩, hrest, h⟩ := Option.bind_eq_some_iff.1 h
        cases h
        -- the peer may have made a space
        obtain ⟨⟨sv', e'⟩, hlook, hrpc⟩ := Option.bind_eq_some_iff.1 hrpc
        obtain ⟨odscs', -, hrpc⟩ := Option.bind_eq_some_iff.1 hrpc
        cases hrpc
        exact (setServer (Server.KeepsSpaces.lookup hlook) g.net).trans (ih hrest)

theorem getQueryOdscs {self : Nat} {qOdsc : ObjDesc} {timeout : Int} {r : List ObjDesc × Group}
    (h : DataSpaces.getQueryOdscs hilbertC2i uninit conf g self qOdsc gdim timeout = some r) :
    g.KeepsSpaces r.2 := by
  rw [DataSpaces.getQueryOdscs] at h
  dsimp only at h
  split at h
  · obtain ⟨⟨sv, e⟩, hlook, h⟩ := Option.bind_eq_some_iff.1 h
    obtain ⟨⟨deTab, sfc⟩, -, h⟩ := Option.bind_eq_some_iff.1 h
    obtain ⟨⟨tabs, g'⟩, hask, h⟩ := Option.bind_eq_some_iff.1 h
    cases h
    -- first the space of the query and the cache, then the peers
    have hself : (g.server self).KeepsSpaces { sv with sfcHash := sfc } :=
      (Server.KeepsSpaces.lookup hlook).trans (Server.KeepsSpaces.congr rfl rfl)
    exact (setServer hself g.net).trans (askPeers _ hask)
  · cases h
    refine setServer ?_ g.net
    rw [Server.queryRemotes]
    split
    · exact Server.KeepsSpaces.congr rfl rfl
    · exact Server.KeepsSpaces.refl _

/-- A request that has to do with no module. -/
theorem step {ev : GroupEvent} (h : g.step hilbertC2i uninit conf ev = some g') : g.KeepsSpaces g' := by
  cases ev with
  | put rank odsc gdim data =>
      obtain ⟨⟨sv, msgs⟩, hput, rfl⟩ := Option.map_eq_some_iff.1 h
      refine setServer (Server.KeepsSpaces.trans ?_ (Server.KeepsSpaces.objUpdateDht hput)) _
      exact Server.KeepsSpaces.congr rfl rfl
  | deliver k =>
      obtain ⟨msg, -, h⟩ := Option.bind_eq_some_iff.1 h
      obtain ⟨sv, hupd, rfl⟩ := Option.map_eq_some_iff.1 h
      obtain ⟨⟨sv₁, e⟩, hlook, hupd⟩ := Option.bind_eq_some_iff.1 hupd
      exact setServer ((Server.KeepsSpaces.lookup hlook).trans (Server.KeepsSpaces.objUpdateLocalDht hupd)) _
  | query rank qOdsc qGdim =>
      obtain ⟨r, hquery, rfl⟩ := Option.map_eq_some_iff.1 h
      exact getQueryOdscs hquery

/-- A server that gets as far as its table, which has the space then. -/
theorem routeAt {exec : ModExec} {rank : Nat} {odsc odsc' : ObjDesc}
    (h : g.routeAt hilbertC2i uninit conf mods exec rank odsc gdim = some (g', odsc')) :
    g.KeepsSpaces g' ∧ ((g'.server rank).findSspace gdim).isSome := by
  obtain ⟨⟨sv, e⟩, hlook, h⟩ := Option.bind_eq_some_iff.1 h
  obtain ⟨⟨sv', msgs, odsc₁⟩, hrequest, h⟩ := Option.bind_eq_some_iff.1 h
  cases h
  have hkeeps : sv.KeepsSpaces sv' := by
    rcases Server.routeRequest_cases hrequest with ⟨res, -, hput, -⟩ | ⟨-, rfl, -⟩
    · refine Server.KeepsSpaces.trans ?_ (Server.KeepsSpaces.objUpdateDht hput)
      exact Server.KeepsSpaces.congr rfl rfl
    · exact Server.KeepsSpaces.refl _
  refine ⟨setServer ((Server.KeepsSpaces.lookup hlook).trans hkeeps) _, ?_⟩
  have hserver : Group.server { g.setServer rank sv' with net := g.net ++ msgs } rank = sv' :=
    Function.update_self _ _ _
  rw [hserver]
  exact hkeeps gdim (Server.isSome_findSspace_lookup hlook)

end Group.KeepsSpaces

/-! ## The answers -/

/-- A server that has routed the query has its space. -/
def ModQuery.Prepared (gdim : GlobalDimension) (s : ModQuery) : Prop :=
  ∀ r odsc, s.routed r = some odsc → ((s.group.server r).findSspace gdim).isSome

section Answers

variable {hilbertC2i : HilbertC2i} {uninit : Nat → Unwritten} {conf : Conf} {mods : List DsModule} {ssd : SSpace}
  {spaces₀ : Nat → SSpace} {gdim : GlobalDimension} {m : Made} {qOdsc : ObjDesc} {timeout : Int} {s s' : ModQuery}
  {p : Plane}

/-- What the servers do otherwise does not matter. -/
theorem ModQuery.Prepared.keeps (h : s.Prepared gdim) {g : Group} (hkeeps : s.group.KeepsSpaces g) :
    ModQuery.Prepared gdim { s with group := g } :=
  fun r odsc hr => hkeeps r gdim (h r odsc hr)

theorem ModQuery.Prepared.step (h : s.Prepared gdim) {ev : ModEvent}
    (hstep : s.step hilbertC2i uninit conf mods qOdsc gdim timeout ev = some s') : s'.Prepared gdim := by
  cases ev with
  | group ev =>
      obtain ⟨g, hg, rfl⟩ := Option.map_eq_some_iff.1 hstep
      exact h.keeps (Group.KeepsSpaces.step hg)
  | other exec rank odsc gdim' =>
      obtain ⟨⟨g, odsc'⟩, hroute, rfl⟩ := Option.map_eq_some_iff.1 hstep
      exact h.keeps (Group.KeepsSpaces.routeAt hroute).1
  | ask self =>
      rw [ModQuery.step] at hstep
      split at hstep
      · obtain ⟨⟨sv, e⟩, hlook, hstep⟩ := Option.bind_eq_some_iff.1 hstep
        obtain ⟨⟨deTab, sfc⟩, -, hstep⟩ := Option.bind_eq_some_iff.1 hstep
        cases hstep
        have hself : (s.group.server self).KeepsSpaces { sv with sfcHash := sfc } :=
          (Server.KeepsSpaces.lookup hlook).trans (Server.KeepsSpaces.congr rfl rfl)
        exact h.keeps (Group.KeepsSpaces.setServer hself s.group.net)
      · cases hstep
  | route exec rank =>
      rw [ModQuery.step] at hstep
      split at hstep
      · obtain ⟨⟨g, odsc'⟩, hroute, rfl⟩ := Option.map_eq_some_iff.1 hstep
        obtain ⟨hkeeps, hspace⟩ := Group.KeepsSpaces.routeAt hroute
        intro r odsc hr
        by_cases hrank : r = rank
        · -- it has just looked the space up
          rw [hrank]
          exact hspace
        · simp only [Function.update_of_ne hrank] at hr
          exact hkeeps r gdim (h r odsc hr)
      · cases hstep
  | answer rank =>
      rw [ModQuery.step] at hstep
      split at hstep
      · obtain ⟨odsc, -, hstep⟩ := Option.bind_eq_some_iff.1 hstep
        obtain ⟨e, -, hstep⟩ := Option.bind_eq_some_iff.1 hstep
        obtain ⟨odscs, -, hstep⟩ := Option.bind_eq_some_iff.1 hstep
        cases hstep
        exact h
      · cases hstep

theorem ModQuery.Prepared.run {evs : List ModEvent}
    (hrun : (ModQuery.init conf spaces₀).run hilbertC2i uninit conf mods qOdsc gdim timeout evs = some s) :
    s.Prepared gdim :=
  ModQuery.isRun.keeps (fun _ _ _ h hstep => h.step hstep) evs _ s (fun _ _ hr => by cases hr) hrun

/-- A server that has routed the query can answer it, whether the query may wait or not. -/
theorem Tracked.answer (h : Tracked hilbertC2i uninit conf ssd gdim m qOdsc s p) (hprepared : s.Prepared gdim)
    (hfits : m.FitsIn qOdsc.bb) (hssd : conf.SpacesFor hilbertC2i uninit gdim fun _ => ssd)
    (hv2 : ssd.hashVersion = .v2) (hpart : Partitioned hilbertC2i ssd conf.sizeSp) (hq : ssd.InDomain qOdsc.bb)
    {r : Nat} {odsc : ObjDesc} (hr : s.routed r = some odsc) (hnone : s.answers r = none) :
    ∃ s', s.step hilbertC2i uninit conf mods qOdsc gdim timeout (.answer r) = some s' := by
  obtain ⟨e, he⟩ := Option.isSome_iff_exists.1 (hprepared r odsc hr)
  obtain ⟨odscs, hfind, -⟩ := h.findOdscs hfits hssd hv2 hpart hq hr he timeout
  refine ⟨{ s with answers := Function.update s.answers r (some odscs) }, ?_⟩
  simp only [ModQuery.step, if_pos hnone, hr, he, hfind, Option.bind_eq_bind, Option.bind_some, Option.pure_def]

end Answers

end DataSpaces
