import Sysint.Process.Ownership

/-! Memory over whole runs of the system: what is in use is not given back, nothing is lost, and
families of processes do not reach each other's memory. -/
namespace Sysint.Process

open Paging Dyadic Hoare Sharing Relation Option
open Machine

/-- The first processes have been made, each with a directory, a kernel stack and memory to
itself. -/
structure Begun (ω : Outset) (w : World) : Prop where
  books : ∃ held, Books ω w.shares [] held w.vm
  holders : w.holders = w.shared
  alive : w.alive = w.shared
  tmpDir : w.tmpDir = 0
  cur : w.cur = 0
  alone : ∀ p ∈ w.shared, 0 < p ∧ p < w.nextTid ∧ w.clonedDir p = 0 ∧ w.family p = p
  space : ∀ p ∈ w.shared, (w.space p).stackBot ≤ kernelVirtualBase ∧
    (w.space p).brkEnd < kernelVirtualBase ∧ w.vm.Stacked (w.space p).dir
  high : ∀ p ∈ w.shared, ∀ i < 1024, Highmem i → (w.dir p).tables i = (w.dir 0).tables i
  root : (w.space 0).dir ∉ ω.pool
  bare : ∀ i, Low i → i ≠ 1023 → (w.dir 0).tables i = none

/-- A state that the system reaches. -/
structure System (ω : Outset) extends World where
  reached : Reach (Begun ω) World.step always toWorld

variable {ω : Outset} {w w' : World} {a : Action} {p q : Nat}

theorem Begun.tidy (h : Begun ω w) : Tidy ω 0 w := by
  refine ⟨h.books, fun p hp => ?_, ?_, fun p hp => ?_, fun p hp _ => .inl (h.holders ▸ hp),
    fun ht => absurd h.tmpDir ht, fun hc => absurd h.cur hc, h.root, h.bare⟩
  · obtain ⟨hpos, hmade, hbase, hfam⟩ := h.alone p hp
    exact ⟨hbase.trans_lt hpos, hmade, hfam.le, fun ha => absurd (h.alive ▸ hp) ha, h.high p hp⟩
  · rw [h.holders]
    exact fun _ hp => hp
  · rw [h.alive] at hp
    obtain ⟨hstack, hheap, hstacked⟩ := h.space p hp
    exact ⟨h.holders ▸ hp, hstack, hheap, hstacked⟩

theorem step_tidy (h : Tidy ω 0 w) (hw : w.step a = some w') : Tidy ω 0 w' ∧ Shields a w w' := by
  have hact : ∀ {o : Option World}, (if w.cur = 0 then none else o) = some w' →
      w.cur ≠ 0 ∧ o = some w' := by
    intro o ho
    split_ifs at ho with h0
    exact ⟨h0, ho⟩
  cases a with
  | switch p => exact switch_tidy h hw
  | shuffle ts => exact shuffle_tidy h hw
  | reap p =>
    have hp : p ∈ w.holders ∧ p ∉ w.alive := by
      by_contra hc
      rw [World.step, if_neg hc] at hw
      cases hw
    obtain ⟨v, hv, -, hdone⟩ := reap_tidy h hp.1 hp.2
    obtain rfl : v = w' := Option.some.inj (hv.symm.trans hw)
    exact hdone
  | exit =>
    obtain ⟨h0, hw⟩ := hact hw
    obtain ⟨v, hv, -, hdone⟩ := exit_tidy h h0
    obtain rfl : v = w' := Option.some.inj (hv.symm.trans hw)
    exact hdone
  | clone flags =>
    obtain ⟨h0, hw⟩ := hact hw
    by_cases hsig : flags &&& cloneCsignalMask ≥ 32
    · rw [World.act, World.clone, if_pos hsig] at hw
      cases hw
      exact ⟨h, .refl _ w⟩
    · obtain ⟨h', hs, -⟩ := clone_tidy h h0 hsig hw
      exact ⟨h', hs⟩
  | brk addr =>
    obtain ⟨h0, hw⟩ := hact hw
    exact brk_tidy h h0 hw
  | store a v =>
    obtain ⟨h0, hw⟩ := hact hw
    exact store_tidy h h0 hw

theorem System.tidy (s : System ω) : Tidy ω 0 s.toWorld :=
  s.reached.invariant (fun _ hw => hw.tidy) fun _ _ _ ht _ hs => (step_tidy ht hs).1

/-! ## What is in use -/

/-- The frame allocator is in a state that it reaches by itself, and takes what processes have for
allocated; and so does the heap. -/
theorem nothing_in_use_given_back (s : System ω) :
    ∃ held, Reachable ω.boot always ⟨s.vm.buddy, held⟩ ∧ s.vm.spare.Nodup ∧
      ∀ p ∈ s.alive, (s.space p).dir ∉ s.vm.spare ∧
        ∀ t, s.shares.Tables s.vm p t → t ∉ s.vm.spare ∧ ∀ j < 1024, ∀ f, s.vm.holds t j = some f →
          (⟨f, 0⟩ : Block) ∈ held ∧ ∀ c ∈ s.vm.buddy.freeBlocks, ¬ c.Mem f := by
  obtain ⟨held, B⟩ := s.tidy.books
  refine ⟨held, B.accounts.frames, B.nodup, fun p hp => ?_⟩
  have hin : p ∈ s.shares.list := s.tidy.mem hp
  refine ⟨B.not_mem hin (Shares.tab_dir hin), fun t ht => ⟨?_, fun j hj f hf => ?_⟩⟩
  · obtain ⟨i, hi, ht⟩ := ht
    exact B.not_mem hin ((Shares.tab_low hin hi).trans ht)
  · have hheld := B.accounts.mem (names_of_tables B hin ht hj hf)
    exact ⟨hheld, fun c hc => B.accounts.frames.not_free hheld hc⟩

/-- A process that is not deleted, or `_tmp_dir`, keeps the `shared_page_dir` of `p`, perhaps
through others. -/
def World.Serves (w : World) (p : Nat) : Prop :=
  ∃ q, (q ∈ w.holders ∨ w.tmpDir ≠ 0 ∧ q = w.tmpDir) ∧
    ReflTransGen (fun x y => y = w.clonedDir x) q p

theorem Tidy.serves (h : Tidy ω 0 w) (hp : p ∈ w.shared) : w.Serves p := by
  -- what is built on a directory comes after it
  induction hm : w.nextTid - p using Nat.strong_induction_on generalizing p with
  | _ m ih =>
    rcases h.referred p hp (h.pos hp) with hin | htmp | ⟨q, hq, hbase⟩
    · exact ⟨p, .inl hin, .refl⟩
    · exact ⟨p, .inr ⟨htmp ▸ h.pos hp, htmp.symm⟩, .refl⟩
    · have hlt : p < q := hbase ▸ (h.shared q hq).based
      have := (h.shared q hq).made
      obtain ⟨r, hr, hchain⟩ := ih (w.nextTid - q) (by omega) hq rfl
      exact ⟨r, hr, hchain.tail hbase.symm⟩

/-- Every frame and every table that has been taken is in a directory that something keeps. -/
theorem nothing_lost (s : System ω) : ∃ held, Reachable ω.boot always ⟨s.vm.buddy, held⟩ ∧
      (∀ c ∈ held, c ∈ ω.rest ∨ ∃ p t j, s.Serves p ∧ s.shares.Tables s.vm p t ∧
        s.vm.holds t j = some c.idx ∧ c.order = 0) ∧
      ∀ x ∈ ω.pool, x ∈ s.vm.spare ∨ ∃ p, s.Serves p ∧
        (x = (s.space p).dir ∨ s.shares.Tables s.vm p x) := by
  obtain ⟨held, B⟩ := s.tidy.books
  refine ⟨held, B.accounts.frames, fun c hc => ?_, fun x hx => ?_⟩
  · rcases (B.accounts.held c).mp hc with hrest | ⟨t, j, f, ⟨hback, -, hf⟩, rfl⟩
    · exact .inl hrest
    · obtain ⟨p, hp, i, hi, howns⟩ := hback.resolve_left nofun
      have ht := (Shares.tab_low hp hi).symm.trans howns.1
      exact .inr ⟨p, t, j, s.tidy.serves hp, ⟨i, hi, ht⟩, hf, rfl⟩
  rcases (B.pool x).mp hx with hspare | ⟨p, i, hp, howns⟩
  · exact .inl hspare
  · refine .inr ⟨p, s.tidy.serves hp, ?_⟩
    rcases Books.owns_cases howns with ⟨-, hdir⟩ | hi
    · exact .inl hdir
    · exact .inr ⟨i, hi, (Shares.tab_low hp hi).symm.trans howns.1⟩

/-- Whatever `exit` and the destructor of a process give back was in use: neither stops, and the
frames were held. -/
theorem freeing_never_stops (s : System ω) :
    (s.cur ≠ 0 → ∃ w, s.step .exit = some w ∧ Frees ω.boot s.vm.buddy w.vm.buddy) ∧
      ∀ p ∈ s.holders, p ∉ s.alive →
        ∃ w, s.step (.reap p) = some w ∧ Frees ω.boot s.vm.buddy w.vm.buddy := by
  refine ⟨fun h0 => ?_, fun p hp ha => ?_⟩
  · obtain ⟨w, hw, hfrees, -⟩ := exit_tidy s.tidy h0
    exact ⟨w, (if_neg h0).trans hw, hfrees⟩
  · obtain ⟨w, hw, hfrees, -⟩ := reap_tidy s.tidy hp ha
    exact ⟨w, hw, hfrees⟩

/-! ## Isolation -/

/-- Each frame is in the memory of one family only. -/
theorem families_share_no_frame (s : System ω) :
    ∃ owner : Nat → Nat, ∀ p ∈ s.alive, ∀ t, s.shares.Tables s.vm p t → ∀ j < 1024, ∀ f,
      s.vm.holds t j = some f → owner f = s.family p := by
  classical
  obtain ⟨held, B⟩ := s.tidy.books
  let Has (f p : Nat) := p ∈ s.alive ∧ ∃ t j, s.shares.Tables s.vm p t ∧ j < 1024 ∧
    s.vm.holds t j = some f
  refine ⟨fun f => if h : ∃ p, Has f p then s.family h.choose else 0, fun p hp t ht j hj f hf => ?_⟩
  have h : ∃ p, Has f p := ⟨p, hp, t, j, ht, hj, hf⟩
  obtain ⟨hq, u, k, hu, hk, hg⟩ := h.choose_spec
  exact (dif_pos h).trans
    (frame_family B (s.tidy.mem hq) (s.tidy.mem hp) hu ht hk hj hg hf)

theorem Unseen.pte (h : Unseen w w' q) {n : Nat} (hn : n < 0xC0000) :
    w'.vm.pte (w.space q).dir n = w.vm.pte (w.space q).dir n := by
  have hdir := h.dir
  unfold World.dir at hdir
  rw [h.space] at hdir
  unfold Vm.pte
  rw [hdir]
  cases ht : (w.vm.dir (w.space q).dir).tables (n >>> 10) with
  | none => rfl
  | some t => simp [Vm.page, h.table t ⟨_, low_of_lt hn, ht⟩]

/-- User code sees what it saw. -/
theorem Unseen.user (h : Unseen w w' q) (a : Nat) :
    (∀ write, w'.access q a write = w.access q a write) ∧ w'.byte q a = w.byte q a := by
  have hacc : ∀ write, w'.access q a write = w.access q a write := by
    intro write
    unfold World.access
    rw [h.space, h.dir]
    by_cases ha : a < kernelVirtualBase
    · have hlow : a >>> pageShift < 0xC0000 := by
        have hbase : kernelVirtualBase = 0xC0000000 := rfl
        rw [Nat.shiftRight_eq_div_pow, pageShift]
        omega
      rw [h.pte hlow]
    · rw [if_neg fun hc => ha hc.1, if_neg fun hc => ha hc.1]
  refine ⟨hacc, ?_⟩
  unfold World.byte
  rw [hacc]
  cases hx : w.access q a false with
  | none => rfl
  | some x =>
    obtain ⟨t, j, ht, hj, hf⟩ := World.access_holds hx
    rw [map_some, map_some, h.frame t j x.1 ht hj hf]

/-- Process numbers are not used again, so who lives at the end has lived all along. -/
theorem lives_run {v : World} (h : Tidy ω 0 v) {ok : World → Action → Prop} {I : World → Prop}
    (hrun : Reach (· = v) World.step ok w') (hp : p < v.nextTid) (hI : p ∈ v.alive → I v)
    (hstep : ∀ x a x', Tidy ω 0 x → p ∈ x.alive → p ∈ x'.alive → ok x a → Shields a x x' → I x →
      I x') (hp' : p ∈ w'.alive) : I w' := by
  have hinv : Tidy ω 0 w' ∧ p < w'.nextTid ∧ (p ∈ w'.alive → I w') := by
    refine hrun.invariant (I := fun x => Tidy ω 0 x ∧ p < x.nextTid ∧ (p ∈ x.alive → I x)) ?_ ?_
    · rintro x rfl
      exact ⟨h, hp, hI⟩
    · rintro x a x' ⟨hx, hlt, hIx⟩ hok hs
      obtain ⟨hx', S⟩ := step_tidy hx hs
      refine ⟨hx', hlt.trans_le S.next, fun halive => ?_⟩
      have hback := (S.back p halive).resolve_right hlt.ne
      exact hstep x a x' hx hback halive hok S (hIx hback)
  exact hinv.2.2 hp'

/-- Steps that processes of other families take do not change what a process sees. -/
theorem others_change_nothing (s : System ω) (hp : p ∈ s.alive)
    (hrun : Reach (· = s.toWorld) World.step (World.Foreign (s.family p)) w')
    (hp' : p ∈ w'.alive) (a : Nat) :
    (∀ write, w'.access p a write = s.access p a write) ∧ w'.byte p a = s.byte p a := by
  have hsame : Unseen s.toWorld w' p ∧ w'.family p = s.family p := by
    refine lives_run (I := fun x => Unseen s.toWorld x p ∧ x.family p = s.family p) s.tidy hrun
      (s.tidy.shared p (s.tidy.mem hp)).made (fun _ => ⟨.refl _ p, rfl⟩) ?_ hp'
    rintro x a x' - hin hin' hok S ⟨hsee, hfam⟩
    rw [← hfam] at hok
    exact ⟨hsee.trans (S.unseen p hin hin' hok), (S.family p hin).trans hfam⟩
  exact hsame.1.user a

/-! ## Shared memory -/

theorem World.Linked.keeps {i : Nat} (h : w.Linked p q i) (hp : KeepsTables w w' p)
    (hq : KeepsTables w w' q) : w'.Linked p q i := by
  obtain ⟨t, htp, htq, hentry⟩ := h
  obtain ⟨htp', hep⟩ := hp i t htp
  obtain ⟨htq', heq⟩ := hq i t htq
  exact ⟨t, htp', htq', by rw [hep, heq, hentry]⟩

/-- Where two processes have the same table, they reach the same bytes. -/
theorem World.Linked.user {a : Nat} (h : w.Linked p q (a >>> 22)) :
    (∀ write, w.access p a write = w.access q a write) ∧ w.byte p a = w.byte q a := by
  obtain ⟨t, htp, htq, hentry⟩ := h
  have hindex : a >>> pageShift >>> 10 = a >>> 22 := (Nat.shiftRight_add a 12 10).symm
  have hpte : w.vm.pte (w.space p).dir (a >>> pageShift) =
      w.vm.pte (w.space q).dir (a >>> pageShift) := by
    rw [← hindex] at htp htq
    rw [Vm.pte_of_table htp, Vm.pte_of_table htq]
  have hacc : ∀ write, w.access p a write = w.access q a write := by
    intro write
    unfold World.access
    rw [hpte, hentry]
  exact ⟨hacc, by rw [World.byte, World.byte, hacc]⟩

/-- As long as both live, a process that was made with `CLONE_VM` and its maker reach the same bytes
wherever the maker had a table, except in the table of its stack. -/
theorem cloned_memory_stays_common (s : System ω) {flags : Nat} (hvm : flags &&& cloneVm ≠ 0)
    (hsig : flags &&& cloneCsignalMask < 32) {v : World} (hclone : s.step (.clone flags) = some v)
    (hrun : Reach (· = v) World.step always w') (hmaker : s.cur ∈ w'.alive)
    (hmade : s.nextTid ∈ w'.alive) {a : Nat} (ha : a >>> 22 < World.stackTable)
    (ht : (s.dir s.cur).tables (a >>> 22) ≠ none) :
    (∀ write, w'.access s.nextTid a write = w'.access s.cur a write) ∧
      w'.byte s.nextTid a = w'.byte s.cur a := by
  obtain ⟨h0, hact⟩ : s.cur ≠ 0 ∧ s.clone flags = some v := by
    change (if s.cur = 0 then none else s.clone flags) = some v at hclone
    split_ifs at hclone with h0
    exact ⟨h0, hclone⟩
  obtain ⟨T, -, hmaker₀, hmade₀, hlinked⟩ := clone_tidy s.tidy h0 (not_le.mpr hsig) hact
  obtain ⟨t, ht⟩ := ne_none_iff_exists'.mp ht
  have hstack : World.stackTable = 767 := by decide
  have hlow : Low (a >>> 22) := by
    have hstart : kernelHighmemStart = 768 := by decide
    refine ⟨by omega, fun hh => ?_⟩
    have := hh.1
    omega
  have hlinks : (World.cloneArgs flags).Links (a >>> 22) := by
    refine ⟨hvm, ?_, ?_⟩
    · rw [kstackTable_iff]
      omega
    · rintro ⟨hle, -⟩
      have hle' : World.stackTable ≤ a >>> 22 := Int.ofNat_le.mp hle
      omega
  have hmade' : ∀ p ∈ v.alive, p < v.nextTid := fun p hp => (T.shared p (T.mem hp)).made
  have hlink : s.cur < w'.nextTid ∧
      (s.cur ∈ w'.alive → w'.Linked s.nextTid s.cur (a >>> 22)) := by
    refine lives_run (I := fun x => s.cur < x.nextTid ∧
      (s.cur ∈ x.alive → x.Linked s.nextTid s.cur (a >>> 22))) T hrun (hmade' _ hmade₀)
      (fun _ => ⟨hmade' _ hmaker₀, fun _ => hlinked _ t hlow hlinks ht⟩) ?_ hmade
    rintro x b x' - hin hin' - S ⟨hlt, hl⟩
    refine ⟨hlt.trans_le S.next, fun halive => ?_⟩
    have hback := (S.back _ halive).resolve_right hlt.ne
    exact (hl hback).keeps (S.keeps _ hin hin') (S.keeps _ hback halive)
  exact (hlink.2 hmaker).user

/-! ## A small machine -/

/-- Two processes with kernel stacks and no other memory. The directory of a process has its
number. -/
def twoStacks : Vm where
  buddy := init bootOne
  frame := fun _ _ => 0
  table := fun _ => ⟨fun _ => ⟨0⟩⟩
  dir d :=
    { entries := fun i => if (d = 1 ∨ d = 2) ∧ i = 1023 then 3 else 0
      tables := fun i => if (d = 1 ∨ d = 2) ∧ i = 1023 then some (d + 2) else none }
  spare := [5, 6, 7, 8, 9, 10]
  curDir := 0

def twoSpaces : World where
  vm := twoStacks
  space p := ⟨0x08000000, 0x08000000, kernelVirtualBase - 0x1000, p⟩
  clonedDir _ := 0
  shared := [1, 2]
  holders := [1, 2]
  alive := [1, 2]
  tmpDir := 0
  cur := 0
  nextTid := 3
  family p := p

def twoOutset : Outset := ⟨bootOne, [], [1, 2, 3, 4, 5, 6, 7, 8, 9, 10]⟩

theorem twoSpaces_owns {i t : Nat} : (twoSpaces.shares.store twoSpaces.vm).Owns p i t ↔
    (p = 1 ∨ p = 2) ∧ (i = 1023 ∧ t = p + 2 ∨ i = 1024 ∧ t = p) := by
  have hlow : Low 1023 := by decide
  have hbase : twoSpaces.shares.base p = p := rfl
  have htab : (twoSpaces.shares.store twoSpaces.vm).tab p i = some t ↔
      (p = 1 ∨ p = 2) ∧ (i = 1023 ∧ t = p + 2 ∨ i = 1024 ∧ t = p) := by
    simp only [Shares.store, Shares.tab, World.shares, twoSpaces, twoStacks, List.mem_cons,
      List.not_mem_nil, or_false]
    grind
  rw [Store.Owns, htab]
  exact and_iff_left (.inr (.inl hbase))

theorem twoSpaces_used {t : Nat} :
    (twoSpaces.shares.store twoSpaces.vm).Used t ↔ t = 1 ∨ t = 2 ∨ t = 3 ∨ t = 4 := by
  have hlive : ∀ p, (twoSpaces.shares.store twoSpaces.vm).live p ↔ p = 1 ∨ p = 2 := by
    simp [Shares.store, World.shares, twoSpaces]
  simp only [Store.Used, hlive, twoSpaces_owns]
  constructor
  · rintro ⟨p, i, hp⟩
    omega
  · intro ht
    by_cases h2 : t ≤ 2
    · exact ⟨t, 1024, by omega⟩
    · exact ⟨t - 2, 1023, by omega⟩

theorem twoSpaces_books : Books twoOutset twoSpaces.shares [] [] twoSpaces.vm where
  ok := by
    refine ⟨fun _ hp => hp, fun _ _ hne => absurd rfl hne, fun p q i j t _ _ hp hq => ?_⟩
    rw [twoSpaces_owns] at hp hq
    omega
  family := fun _ _ => rfl
  nodup := by decide
  free := by
    intro x hx hc
    have hc : x = 1 ∨ x = 2 ∨ x = 3 ∨ x = 4 := twoSpaces_used.mp hc
    rcases hc with rfl | rfl | rfl | rfl <;> revert hx <;> decide
  pool := by
    intro x
    have hused := twoSpaces_used (t := x)
    simp only [twoOutset, twoSpaces, twoStacks, List.nil_append, List.mem_cons, List.not_mem_nil,
      or_false] at hused ⊢
    rw [hused]
    omega
  accounts := by
    have hnone : ∀ t j f, ¬ twoSpaces.shares.Names [] twoSpaces.vm t j f := by
      rintro t j f ⟨-, -, hf⟩
      have hpage : twoSpaces.vm.page ⟨t, j⟩ = ⟨0⟩ := rfl
      rw [Vm.holds, hpage] at hf
      cases hf
    have hinit : Frames.init bootOne = ⟨twoStacks.buddy, []⟩ := by
      simp [twoStacks, Frames.init]
    refine ⟨hinit ▸ .init rfl, ?_, ?_, ?_⟩
    · exact fun t u i j f hN => absurd hN (hnone t i f)
    · intro c
      constructor
      · intro hc
        cases hc
      · rintro (hc | ⟨t, j, f, hN, -⟩)
        · cases hc
        · exact absurd hN (hnone t j f)
    · exact fun t j f hN => absurd hN (hnone t j f)

theorem twoSpaces_begun : Begun twoOutset twoSpaces where
  books := ⟨[], twoSpaces_books⟩
  holders := rfl
  alive := rfl
  tmpDir := rfl
  cur := rfl
  alone := by
    intro p hp
    refine ⟨?_, ?_, rfl, rfl⟩ <;> revert p <;> decide
  space := by
    intro p hp
    have hp' : p = 1 ∨ p = 2 := by simpa [twoSpaces] using hp
    refine ⟨by decide +revert, by decide +revert, p + 2, if_pos ⟨hp', rfl⟩, ?_⟩
    have hentry : (twoStacks.dir p).entries 1023 = 3 := if_pos ⟨hp', rfl⟩
    change (twoStacks.dir p).entries 1023 &&& pagePresent ≠ 0 ∧
      (twoStacks.dir p).entries 1023 &&& pageDir4m = 0
    rw [hentry]
    decide
  high := by
    intro p _ i _ hi
    have hne : i ≠ 1023 := fun heq => hi.2 (kstackTable_iff.mpr heq)
    simp [World.dir, twoSpaces, twoStacks, hne]
  root := by decide
  bare := by
    intro i _ _
    simp [World.dir, twoSpaces, twoStacks]

/-- The run of the small machine with the given actions. -/
def memoryRun (acts : List Action) : Option World := run World.step twoSpaces acts

/-- What the run reaches. -/
def reachedBy {acts : List Action} (h : memoryRun acts = some w) : System twoOutset :=
  ⟨w, Reach.run (.init twoSpaces_begun) h⟩

/-- Process 1 stores 7, and then process 2 runs. -/
def firstStores : List Action := [.switch 1, .brk 0x08001000, .store 0x08000010 7, .switch 2]

/-- Process 2 stores 9 at the same address, and ends. -/
def secondStores : List Action := [.brk 0x08001000, .store 0x08000010 9, .exit]

theorem others_change_nothing_sample : ∃ w w', memoryRun firstStores = some w ∧
      run (guarded World.step (World.Foreign 1)) w secondStores = some w' ∧
      w'.byte 2 0x08000010 = some 9 ∧ w.byte 1 0x08000010 = some 7 ∧
      w'.byte 1 0x08000010 = some 7 := by
  have hrun : ((memoryRun firstStores).bind fun w => (run (guarded World.step
      (World.Foreign 1)) w secondStores).map fun w' => ((w.alive, w.family 1), w'.alive,
        w'.byte 2 0x08000010, w.byte 1 0x08000010)) =
      some (([1, 2], 1), [1], some 9, some 7) := by decide +kernel
  obtain ⟨w, hw, hrun⟩ := bind_eq_some_iff.mp hrun
  obtain ⟨w', hw', hval⟩ := run_of_map hrun
  simp only [Prod.mk.injEq] at hval
  obtain ⟨⟨hp, hfam⟩, hp', h2, h1⟩ := hval
  have hreach : Reach (· = w) World.step (World.Foreign (w.family 1)) w' := by
    rw [hfam]
    exact Reach.runGuarded (.init rfl) hw'
  have halive : 1 ∈ w.alive ∧ 1 ∈ w'.alive := by simp [hp, hp']
  have hsame := others_change_nothing (reachedBy hw) halive.1 hreach halive.2 0x08000010
  exact ⟨w, w', hw, hw', h2, h1, hsame.2.trans h1⟩

theorem cloned_memory_stays_common_sample :
    ∃ w v w', memoryRun (firstStores.take 3) = some w ∧ w.step (.clone cloneVm) = some v ∧
      run World.step v [.store 0x08000010 8] = some w' ∧
      w'.byte 1 0x08000010 = some 8 ∧ w'.byte 3 0x08000010 = some 8 := by
  have hfirst : (memoryRun (firstStores.take 3)).map (fun w => (w.cur, w.nextTid,
      (w.dir 1).tables 32)) = some (1, 3, some 5) := by decide +kernel
  have hrun : (memoryRun (firstStores.take 3 ++ [.clone cloneVm, .store 0x08000010 8])).map
      (fun w => (w.alive, w.access 1 0x08000010 false, w.vm.frame 7168 0x10)) =
      some ([3, 1, 2], some (7168, 0x10), 8) := by decide +kernel
  obtain ⟨w, hw, hval⟩ := run_of_map hfirst
  obtain ⟨w', hw', hval'⟩ := run_of_map hrun
  simp only [Prod.mk.injEq] at hval hval'
  obtain ⟨hcur, hnext, ht⟩ := hval
  obtain ⟨halive, hacc, hframe⟩ := hval'
  have hbyte : w'.byte 1 0x08000010 = some 8 := by
    rw [World.byte, hacc]
    exact congrArg some hframe
  have hw : run World.step twoSpaces (firstStores.take 3) = some w := hw
  rw [memoryRun, run_append, hw, bind_some] at hw'
  obtain ⟨v, hv, hw'⟩ := bind_eq_some_iff.mp hw'
  have hreach : Reach (· = v) World.step always w' :=
    Reach.run (.init rfl) hw'
  have htable : (w.dir w.cur).tables (0x08000010 >>> 22) ≠ none := by
    rw [hcur]
    exact ht ▸ nofun
  have hboth : w.cur ∈ w'.alive ∧ w.nextTid ∈ w'.alive := by simp [halive, hcur, hnext]
  have hsame : w'.byte w.nextTid 0x08000010 = w'.byte w.cur 0x08000010 :=
    (cloned_memory_stays_common (reachedBy hw) (by decide) (by decide) hv hreach hboth.1 hboth.2
      (by decide) htable).2
  rw [hcur, hnext] at hsame
  exact ⟨w, v, w', hw, hv, hw', hbyte, hsame.trans hbyte⟩

end Sysint.Process
