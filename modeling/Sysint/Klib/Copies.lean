import Sysint.Devices.Console
import Sysint.Klib.String
import Sysint.Memory.Load
import Sysint.Paging.Clone
import Sysint.UserPtr

/-! The moves and copies in the models of the console, of user pointers, of the page tables and of
the loader are those of `kernel/lib/string.cpp`, each on what its model has for a memory. -/
namespace Sysint.Klib
open Paging Hoare Memory Process.Elf

variable {m : Nat → BitVec 8} {dest src num : Nat}

theorem userPtr_memcpy (h : Unwrapped dest src num) :
    UserPtr.memcpy m dest src num = (memcpy m dest src num).1 :=
  (repMovs_up Nat.one_pos (by simpa using h.1) (by simpa using h.2)).symm

theorem userPtr_memcpyd (h : Unwrapped dest src (4 * num)) :
    UserPtr.memcpyd m dest src num = (memcpyd m dest src num).1 :=
  (repMovs_up (by decide) h.1 h.2).symm

/-! ## Video memory -/

/-- A cell is two bytes, from `base` on. -/
def Cells (m : Nat → BitVec 8) (base : Nat) (cells : Nat → BitVec 16) : Prop :=
  ∀ i, cells i = m (base + 2 * i + 1) ++ m (base + 2 * i)

theorem video_memmoved {v : Devices.Video} {base : Nat} (h : Cells m base v.cells)
    (hw : Unwrapped (base + 2 * dest) (base + 2 * src) (4 * num)) :
    Cells (memmoved m (base + 2 * dest) (base + 2 * src) num).1 base
      (v.memmoved dest src num).cells := by
  intro i
  rw [Devices.Video.memmoved_cells, memmoved, moveElems_eq (by decide) (by decide) hw.1 hw.2]
  dsimp only
  by_cases hi : dest ≤ i ∧ i < dest + 2 * num
  · rw [Block.move_of_mem hi.1 hi.2, h, Block.move_of_mem (by omega) (by omega),
      Block.move_of_mem (by omega) (by omega)]
    congr 2 <;> omega
  · rw [Block.move_of_not_mem (by omega), h, Block.move_of_not_mem (by omega),
      Block.move_of_not_mem (by omega)]

/-! ## Pages -/

variable {vm vm₁ : Vm} {b : Boot} {d : Nat}

/-- The bytes of a page are copied to the one below it, which leads to another frame. -/
theorem paging_memcpyd {f g : Nat} (hne : f ≠ g) (hsrc : vm.Leads d src f)
    (hdest : vm.Leads d dest g) (hle : dest ≤ src) (hend : src + pageSize ≤ 2 ^ 32)
    (hnum : 4 * num ≤ pageSize) (hm : ∀ a c, read vm d a = some c → m a = c) :
    ∃ vm', Paging.memcpyd d dest src num vm = .ok ⟨⟩ vm' ∧
      ∀ o < pageSize, read vm' d (dest + o) = some ((memcpyd m dest src num).1 (dest + o)) := by
  have hrun := memcpyd_run hne hsrc hdest hend (by omega) num 0 src dest (by omega)
    fun _ => ⟨rfl, rfl⟩
  rw [Vm.copyFrame_zero, Nat.zero_add] at hrun
  refine ⟨_, hrun, fun o ho => ?_⟩
  have hbyte {a e : Nat} (h : vm.translate d a = some (e, o)) : m a = vm.frame e o :=
    hm a _ (by rw [Memory.read, h]; rfl)
  have hread : read (vm.copyFrame f g (4 * num)) d (dest + o) =
      some (if o < 4 * num then vm.frame f o else vm.frame g o) := by
    have ht : (vm.copyFrame f g (4 * num)).translate d (dest + o) = some (g, o) := hdest o ho
    simp [Memory.read, ht]
  rw [hread, memcpyd, copyElems_eq (by decide) (by omega) (by omega) (.inl hle)]
  dsimp only
  split_ifs with hlt
  · rw [Block.move_of_mem (by omega) (by omega), Nat.add_sub_cancel_left, hbyte (hsrc o ho)]
  · rw [Block.move_of_not_mem (by omega), hbyte (hdest o ho)]

/-! ## The loader -/

/-- The image lies in kernel memory, and its bytes go to mapped user memory. -/
structure Loads (vm₁ : Vm) (d dest src len : Nat) : Prop where
  below : dest + len ≤ kernelVirtualBase
  above : kernelVirtualBase ≤ src
  stop : src + len ≤ 2 ^ 32
  mapped : ∀ j, j < len → (vm₁.translate d (dest + j)).isSome

theorem elf_fill (hs : Space b d vm₁) {w : Nat} (hw : 0 < w) (h : Loads vm₁ d dest src (w * num)) :
    Triple (Filled vm₁ d m) (fill d dest (fun i => m (src + i)) (w * num) 0)
      (fun _ => Filled vm₁ d (copyElems w m dest src num).1) (fun _ _ => False) := by
  obtain ⟨hdest, hsrc, hstop, hmap⟩ := h
  have hbelow : dest + (0 + w * num) ≤ kernelVirtualBase := by rwa [Nat.zero_add]
  have hfill := fill_fills (g := m) hs (fun i => m (src + i)) (w * num) 0 hbelow fun j hj => by
    simpa using hmap j hj
  have hcopy : (copyElems w m dest src num).1 =
      overwrite m (dest + 0) (w * num) fun j => m (src + (0 + j)) := by
    rw [copyElems_eq hw (by omega) hstop (.inl (by omega))]
    simp only [Nat.zero_add]
    rfl
  rwa [hcopy]

theorem elf_memcpy (hs : Space b d vm₁) (h : Loads vm₁ d dest src num) :
    Triple (Filled vm₁ d m) (Process.Elf.memcpy d dest (fun i => m (src + i)) num)
      (fun _ => Filled vm₁ d (memcpy m dest src num).1) (fun _ _ => False) := by
  have hfill := elf_fill (m := m) hs Nat.one_pos (by rwa [Nat.one_mul])
  rwa [Nat.one_mul] at hfill

theorem elf_memcpyd (hs : Space b d vm₁) (h : Loads vm₁ d dest src (4 * num)) :
    Triple (Filled vm₁ d m) (Process.Elf.memcpyd d dest (fun i => m (src + i)) num)
      (fun _ => Filled vm₁ d (memcpyd m dest src num).1) (fun _ _ => False) :=
  elf_fill hs (by decide) h

end Sysint.Klib
