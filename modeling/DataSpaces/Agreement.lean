import DataSpaces.Query
import DataSpaces.Transparency

/-!
# Agreement — does it matter which server a query is sent to?

Two servers ask the same servers for a query when `ssd_hash` selects any, and every server answers from
its own table whoever asks.  What does depend on the receiving server is whether it handles the name
itself or asks the remotes (`local_responsibility`), and what happens when `ssd_hash` selects nobody:
then the receiving server looks into its own table only.  On a v1 space a box that misses the virtual cube
is compared with memory that was never written, and the answer changes with it from call to call.
-/

namespace DataSpaces

section Agree

variable {hilbertC2i : HilbertC2i} {uninit : Nat → Unwritten} {conf : Conf} {g : Group} {qOdsc : ObjDesc}
  {gdim : GlobalDimension}

/-- What identifies a descriptor in an answer. -/
def ObjDesc.key (odsc : ObjDesc) : CStr × UInt32 × BBox :=
  (odsc.name, odsc.version, odsc.bb)

/-- No call that answers the query compares with memory that was never written. -/
structure Settled (ssd : SSpace) (tables : Nat → DhtTable) (qOdsc : ObjDesc) : Prop where
  box : ssd.readsUnwritten qOdsc.bb = false
  parts : ∀ rank, ∀ s ∈ (tables rank).found qOdsc,
    ssd.readsUnwritten (bboxIntersect qOdsc.bb s.odsc.bb) = false

/-- A box with a cell in the domain is one for which `ssd_hash` selects a server. -/
theorem ssdHashLoop_ne_nil {ssd : SSpace} {numNodes : Nat}
    (hpart : Partitioned hilbertC2i ssd numNodes) {bb : BBox} (hbb : ssd.Fits bb)
    (hmeet : (bb.cells ∩ ssd.bbGlbDomain.cells).Nonempty) :
    ∀ u, ssdHashLoop hilbertC2i u ssd bb ≠ some [] := by
  rcases hpart.hash bb hbb hmeet with ⟨ranks, hranks, -, howned⟩
  rcases hmeet with ⟨x, hx⟩
  rcases hpart.exists_owner (Finset.mem_inter.1 hx).2 with ⟨de, hde, hown⟩
  have hmem := howned de hde ⟨x, Finset.mem_inter.2 ⟨(Finset.mem_inter.1 hx).1, hown⟩⟩
  intro u hnil
  rw [hranks u, Option.some.injEq] at hnil
  rw [hnil] at hmem
  simp at hmem

end Agree

end DataSpaces
