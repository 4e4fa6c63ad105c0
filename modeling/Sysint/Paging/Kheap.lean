import Sysint.Heap.Run
import Sysint.Paging.Release

/-! The kernel heap as it serves page tables and directories. As long as `heap::alloc` does not
have to grow the heap, what it gives out for aligned requests is what `kmalloc` takes from the free
blocks of an address space, in some order; and what goes back through `heap::free` is free again. -/
namespace Sysint.Paging

open Heap (heapBase heapInitSize Live Sentinel)
open Machine

/-- The free blocks are the pages of the heap at whose start no payload lies. `frame` names the
block at a page. -/
structure Lends (frame : Nat → Nat) (s : Heap.Run) (vm : Vm) : Prop where
  inj : ∀ p q, p % 4096 = 0 → q % 4096 = 0 → frame p = frame q → p = q
  spare : ∀ t, t ∈ vm.spare ↔ ∃ p, heapBase ≤ p ∧ p < s.heap.heapEnd ∧ p % 4096 = 0 ∧
    p ∉ s.live.map Live.ptr ∧ frame p = t
  nodup : vm.spare.Nodup

variable {nil : Sentinel} {s s' : Heap.Run} {vm : Vm} {frame : Nat → Nat} {n p : Nat}

/-- An aligned block that `heap::alloc` gives without growing the heap is one that `kmalloc` can
give. -/
theorem Lends.kmalloc (L : Lends frame s vm) (hr : Heap.Reachable nil.addr s)
    {fill : Heap.Mem} (hok : Heap.sizesFit nil.addr s (.alloc n true fill))
    (hs : s.step nil.addr (.alloc n true fill) = some s')
    (hend : s'.heap.heapEnd = s.heap.heapEnd) :
    ∃ p ts, s'.live = ⟨p, n, true⟩ :: s.live ∧ (frame p :: ts).Perm vm.spare ∧
      kmalloc (vm.setSpare (frame p :: ts)) = .ok (frame p) (vm.setSpare ts) ∧
      Lends frame s' (vm.setSpare ts) := by
  obtain ⟨bs, free, R⟩ := Heap.reachable_inv hr
  obtain ⟨bs', free', R', -⟩ := R.alloc hok hs
  obtain ⟨⟨k, p⟩, -, rfl⟩ := Option.map_eq_some_iff.mp hs
  obtain ⟨b, hb, hp⟩ := R'.payload ⟨p, n, true⟩ List.mem_cons_self
  have hpage : p % 4096 = 0 := hp.page rfl
  have hptr : p = b.h + 20 := hp.ptr
  have hbounds := R'.bounds hb
  have hnew : p ∉ s.live.map Live.ptr := (List.nodup_cons.mp R'.nodup).1
  have hin : frame p ∈ vm.spare :=
    (L.spare _).mpr ⟨p, by omega, by rw [← hend]; omega, hpage, hnew, rfl⟩
  refine ⟨p, vm.spare.erase (frame p), rfl, (List.perm_cons_erase hin).symm, rfl, L.inj, ?_,
    L.nodup.erase _⟩
  intro t
  change t ∈ vm.spare.erase (frame p) ↔ ∃ q, heapBase ≤ q ∧ q < k.heapEnd ∧ q % 4096 = 0 ∧
    q ∉ p :: s.live.map Live.ptr ∧ frame q = t
  rw [L.nodup.mem_erase_iff, L.spare, hend]
  constructor
  · rintro ⟨hne, q, h1, h2, h3, h4, rfl⟩
    refine ⟨q, h1, h2, h3, ?_, rfl⟩
    rw [List.mem_cons, not_or]
    exact ⟨fun heq => hne (heq ▸ rfl), h4⟩
  · rintro ⟨q, h1, h2, h3, h4, rfl⟩
    rw [List.mem_cons, not_or] at h4
    exact ⟨fun heq => h4.1 (L.inj q p h3 hpage heq), q, h1, h2, h3, h4.2, rfl⟩

/-- While the heap has its first size, `heap::free` of such a block gives no memory back, and
`kfree` does the same. -/
theorem Lends.kfree (L : Lends frame s vm) (hr : Heap.Reachable nil.addr s)
    (hs : s.step nil.addr (.free p) = some s') (hpage : p % 4096 = 0)
    (hfirst : s.heap.heapEnd = heapBase + heapInitSize) : s'.heap.heapEnd = s.heap.heapEnd ∧
      Paging.kfree (frame p) vm = .ok ⟨⟩ (vm.setSpare (frame p :: vm.spare)) ∧
      Lends frame s' (vm.setSpare (frame p :: vm.spare)) := by
  obtain ⟨bs, free, R⟩ := Heap.reachable_inv hr
  obtain ⟨bs', free', R', -, -, hless⟩ := R.freed hs
  have hend : s'.heap.heapEnd = s.heap.heapEnd := by
    have := R'.ends.init
    omega
  simp only [Heap.Run.step] at hs
  split at hs
  · rename_i hlive
    obtain ⟨k, -, rfl⟩ := Option.map_eq_some_iff.mp hs
    obtain ⟨b, hb, -, hptr⟩ := R.block hlive
    have hptr : p = b.h + 20 := hptr
    have hbounds := R.bounds hb
    have hout : frame p ∉ vm.spare := by
      intro hin
      obtain ⟨q, -, -, hq, hnot, heq⟩ := (L.spare _).mp hin
      exact hnot (L.inj q p hq hpage heq ▸ hlive)
    have hmem : ∀ q, q ∉ (s.live.filter (·.ptr ≠ p)).map Live.ptr ↔
        q = p ∨ q ∉ s.live.map Live.ptr := by
      intro q
      simp only [List.mem_map, List.mem_filter, decide_eq_true_eq]
      by_cases hqp : q = p
      · subst hqp
        simp
      · grind
    refine ⟨hend, kfree_run hout, L.inj, fun t => ?_, List.nodup_cons.mpr ⟨hout, L.nodup⟩⟩
    change t ∈ frame p :: vm.spare ↔ ∃ q, heapBase ≤ q ∧ q < k.heapEnd ∧ q % 4096 = 0 ∧
      q ∉ (s.live.filter (·.ptr ≠ p)).map Live.ptr ∧ frame q = t
    rw [List.mem_cons, L.spare, hend]
    simp only [hmem]
    constructor
    · rintro (rfl | ⟨q, h1, h2, h3, h4, rfl⟩)
      · exact ⟨p, by omega, by omega, hpage, .inl rfl, rfl⟩
      · exact ⟨q, h1, h2, h3, .inr h4, rfl⟩
    · rintro ⟨q, h1, h2, h3, rfl | h4, rfl⟩
      · exact .inl rfl
      · exact .inr ⟨q, h1, h2, h3, h4, rfl⟩
  · cases hs

end Sysint.Paging
