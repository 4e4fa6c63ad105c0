import Mathlib.Data.BitVec
import Sysint.Lib.Postorder

/-! The enumeration of the PCI busses in `kernel/devices/pci.cpp`. A bus is scanned by its
constructor, which constructs the slots and functions on it; a bridge among them adds the bus
behind it. -/
namespace Sysint.Devices.Pci

open Postorder Relation List Option BitVec

/-- The registers of configuration space, by bus, slot, function and number. -/
abbrev Config := BitVec 8 → BitVec 5 → BitVec 3 → BitVec 6 → BitVec 32

/-- What is written to the port `CONFIG_ADDRESS`. -/
def outConfigAddr (bus : BitVec 8) (slot : BitVec 5) (func : BitVec 3) (offset : BitVec 8) :
    BitVec 32 :=
  (1#32 <<< 31) ||| (bus.setWidth 32 <<< 16) ||| (slot.setWidth 32 <<< 11) |||
    (func.setWidth 32 <<< 8) ||| offset.setWidth 32

/-- What the port `CONFIG_DATA` then reads. -/
def Config.data (cfg : Config) (addr : BitVec 32) : BitVec 32 :=
  cfg (addr.extractLsb' 16 8) (addr.extractLsb' 11 5) (addr.extractLsb' 8 3) (addr.extractLsb' 2 6)

def Config.readd (cfg : Config) (bus : BitVec 8) (slot : BitVec 5) (func : BitVec 3)
    (offset : BitVec 8) : BitVec 32 := cfg.data (outConfigAddr bus slot func offset)

def Config.readw (cfg : Config) (bus : BitVec 8) (slot : BitVec 5) (func : BitVec 3)
    (offset : BitVec 8) : BitVec 16 :=
  (cfg.readd bus slot func (offset &&& ~~~ 3) >>> ((offset &&& 3) * 8)).setWidth 16

def regVendor : BitVec 8 := 0

def regFuninfo : BitVec 8 := 8

def regHeadertype : BitVec 8 := 14

def regBusNum : BitVec 8 := 0x18

def nonexistent : BitVec 16 := 0xffff

def classcodePciBridge : BitVec 32 := 0x060400

structure Device where
  busid : BitVec 8
  slotid : BitVec 5
  func : BitVec 3
  classcode : BitVec 32
  revisionid : BitVec 8

structure Slot where
  id : BitVec 5
  vendor : BitVec 16
  device : BitVec 16
  devs : List Device

structure Bus where
  id : BitVec 8
  slots : List Slot

/-! ## The constructors

Each of them may add busses to the list `busses`; `add` is `bus_t::add_bus`. -/

section
variable (cfg : Config) (add : BitVec 8 → List Bus → Option (List Bus))

def newDevice (bus : BitVec 8) (slot : BitVec 5) (func : BitVec 3) (busses : List Bus) :
    Option (Device × List Bus) := do
  let fund := cfg.readd bus slot func regFuninfo
  let dev : Device := ⟨bus, slot, func, fund >>> 8, fund.setWidth 8⟩
  if dev.classcode = classcodePciBridge then
    let busses ← add ((cfg.readd bus slot func regBusNum >>> 16).setWidth 8) busses
    return (dev, busses)
  else return (dev, busses)

/-- The loop over the functions of a multi-function device. -/
def newFunctions (bus : BitVec 8) (slot : BitVec 5) :
    List (BitVec 3) → List Device → List Bus → Option (List Device × List Bus)
  | [], devs, busses => some (devs, busses)
  | func :: funcs, devs, busses => do
    if cfg.readw bus slot func regVendor ≠ nonexistent then
      let (dev, busses) ← newDevice cfg add bus slot func busses
      newFunctions bus slot funcs (devs ++ [dev]) busses
    else newFunctions bus slot funcs devs busses

def newSlot (bus : BitVec 8) (slot : BitVec 5) (busses : List Bus) : Option (Slot × List Bus) := do
  let vendord := cfg.readd bus slot 0 0
  let vendor := vendord.setWidth 16
  let device := (vendord >>> 16).setWidth 16
  if vendor = nonexistent then return (⟨slot, vendor, device, []⟩, busses)
  let (dev, busses) ← newDevice cfg add bus slot 0 busses
  if cfg.readw bus slot 0 regHeadertype &&& 0x80 ≠ 0 then
    let (devs, busses) ← newFunctions cfg add bus slot [1, 2, 3, 4, 5, 6, 7] [dev] busses
    return (⟨slot, vendor, device, devs⟩, busses)
  else return (⟨slot, vendor, device, [dev]⟩, busses)

def newSlots (bus : BitVec 8) :
    List (BitVec 5) → List Slot → List Bus → Option (List Slot × List Bus)
  | [], slots, busses => some (slots, busses)
  | slot :: ids, slots, busses => do
    let (s, busses) ← newSlot cfg add bus slot busses
    newSlots bus ids (slots ++ [s]) busses

/-- The slots of a bus, in the order of the loop. -/
def slotIds : List (BitVec 5) := (List.range 32).map (BitVec.ofNat 5)

def newBus (bus : BitVec 8) (busses : List Bus) : Option (Bus × List Bus) := do
  let (slots, busses) ← newSlots cfg add bus slotIds [] busses
  return (⟨bus, slots⟩, busses)

end

/-- `bus_t::add_bus`, with at most `depth` calls of it inside each other. -/
def addBus (cfg : Config) : Nat → BitVec 8 → List Bus → Option (List Bus)
  | 0, _, _ => none
  | depth + 1, bus, busses =>
    if busses.any (fun b => b.id = bus) then some busses
    else do
      let (b, busses) ← newBus cfg (addBus cfg depth) bus busses
      return busses ++ [b]

/-- The loop of `init` over the functions of the host controller. -/
def initLoop (cfg : Config) (depth : Nat) : List (BitVec 3) → List Bus → Option (List Bus)
  | [], busses => some busses
  | func :: funcs, busses => do
    if cfg.readw 0 0 func regVendor ≠ nonexistent then return busses
    let busses ← addBus cfg depth (func.setWidth 8) busses
    initLoop cfg depth funcs busses

/-- `init`; `none` means that calls are nested deeper than `depth`. -/
def init (cfg : Config) (depth : Nat) : Option (List Bus) :=
  if cfg.readw 0 0 0 regHeadertype &&& 0x80 ≠ 0 then
    initLoop cfg depth [0, 1, 2, 3, 4, 5, 6, 7] []
  else addBus cfg depth 0 []

/-! ## Reading registers -/

section
variable (bus : BitVec 8) (slot : BitVec 5) (func : BitVec 3) (offset : BitVec 8)

/-- A bit of the address, in terms of the fields. -/
theorem outConfigAddr_bit {i : Nat} (hi : i < 31) : (outConfigAddr bus slot func offset).getLsbD i =
      (!decide (i < 16) && bus.getLsbD (i - 16) || !decide (i < 11) && slot.getLsbD (i - 11) ||
        !decide (i < 8) && func.getLsbD (i - 8) || offset.getLsbD i) := by
  have hlt : i < 32 := by omega
  have hsub : ∀ k, i - k < 32 := by omega
  have hone : (1#32 <<< 31).getLsbD i = false := by
    rw [getLsbD_shiftLeft]
    simp [hi]
  simp only [outConfigAddr, getLsbD_or, hone, getLsbD_shiftLeft,
    getLsbD_setWidth, hlt, hsub, decide_true, Bool.true_and, Bool.false_or]

theorem outConfigAddr_bus : (outConfigAddr bus slot func offset).extractLsb' 16 8 = bus := by
  apply eq_of_getLsbD_eq
  intro i hi
  have hslot : slot.getLsbD (16 + i - 11) = false := getLsbD_of_ge _ _ (by omega)
  have hfunc : func.getLsbD (16 + i - 8) = false := getLsbD_of_ge _ _ (by omega)
  have hoff : offset.getLsbD (16 + i) = false := getLsbD_of_ge _ _ (by omega)
  rw [getLsbD_extractLsb', outConfigAddr_bit bus slot func offset (by omega)]
  simp [hi, hslot, hfunc, hoff]

theorem outConfigAddr_slot : (outConfigAddr bus slot func offset).extractLsb' 11 5 = slot := by
  apply eq_of_getLsbD_eq
  intro i hi
  have hbus : 11 + i < 16 := by omega
  have hfunc : func.getLsbD (11 + i - 8) = false := getLsbD_of_ge _ _ (by omega)
  have hoff : offset.getLsbD (11 + i) = false := getLsbD_of_ge _ _ (by omega)
  rw [getLsbD_extractLsb', outConfigAddr_bit bus slot func offset (by omega)]
  simp [hi, hbus, hfunc, hoff]

theorem outConfigAddr_func : (outConfigAddr bus slot func offset).extractLsb' 8 3 = func := by
  apply eq_of_getLsbD_eq
  intro i hi
  have hbus : 8 + i < 16 := by omega
  have hslot : 8 + i < 11 := by omega
  rw [getLsbD_extractLsb', outConfigAddr_bit bus slot func offset (by omega)]
  simp [hi, hbus, hslot]

theorem outConfigAddr_reg :
    (outConfigAddr bus slot func offset).extractLsb' 2 6 = offset.extractLsb' 2 6 := by
  apply eq_of_getLsbD_eq
  intro i hi
  have hbus : 2 + i < 16 := by omega
  have hslot : 2 + i < 11 := by omega
  have hfunc : 2 + i < 8 := by omega
  rw [getLsbD_extractLsb', getLsbD_extractLsb',
    outConfigAddr_bit bus slot func offset (by omega)]
  simp [hbus, hslot, hfunc]

/-- The address selects the register that is meant. -/
theorem readd_eq (cfg : Config) :
    cfg.readd bus slot func offset = cfg bus slot func (offset.extractLsb' 2 6) := by
  rw [Config.readd, Config.data, outConfigAddr_bus, outConfigAddr_slot, outConfigAddr_func,
    outConfigAddr_reg]

end

/-! ## What is on a bus -/

section
variable (cfg : Config) (bus : BitVec 8) (slot : BitVec 5) (func : BitVec 3)

def vendorId : BitVec 16 := (cfg bus slot func 0).setWidth 16

def classCode : BitVec 32 := cfg bus slot func 2 >>> 8

/-- The byte at offset `0x19`, for a bridge. -/
def secondaryBus : BitVec 8 := (cfg bus slot func 6 >>> 8).setWidth 8

/-- The byte at offset `0x1A`, for a bridge. -/
def subordinateBus : BitVec 8 := (cfg bus slot func 6 >>> 16).setWidth 8

/-- The header type of function 0 says that there are more functions. -/
def MultiFunction : Prop := (cfg bus slot 0 3 >>> 16).setWidth 16 &&& 0x80#16 ≠ 0

instance : Decidable (MultiFunction cfg bus slot) := inferInstanceAs (Decidable (_ ≠ _))

/-- The function is there. Other functions than 0 are there only in a multi-function device. -/
def Present : Prop :=
  vendorId cfg bus slot 0 ≠ nonexistent ∧
    (func = 0 ∨ MultiFunction cfg bus slot ∧ vendorId cfg bus slot func ≠ nonexistent)

def IsBridge : Prop := classCode cfg bus slot func = classcodePciBridge

instance : Decidable (IsBridge cfg bus slot func) := inferInstanceAs (Decidable (_ = _))

theorem readw_vendor : cfg.readw bus slot func regVendor = vendorId cfg bus slot func := by
  rw [Config.readw, readd_eq, vendorId]
  rfl

theorem readw_headertype :
    cfg.readw bus slot func regHeadertype = (cfg bus slot func 3 >>> 16).setWidth 16 := by
  rw [Config.readw, readd_eq]
  rfl

/-- The functions of a slot, in the order in which they are found. -/
def functions : List (BitVec 3) :=
  if vendorId cfg bus slot 0 = nonexistent then []
  else 0 :: if MultiFunction cfg bus slot then
      [1, 2, 3, 4, 5, 6, 7].filter fun func => vendorId cfg bus slot func ≠ nonexistent
    else []

def deviceOf : Device :=
  ⟨bus, slot, func, classCode cfg bus slot func, (cfg bus slot func 2).setWidth 8⟩

def slotOf : Slot :=
  ⟨slot, vendorId cfg bus slot 0, (cfg bus slot 0 0 >>> 16).setWidth 16,
    (functions cfg bus slot).map (deviceOf cfg bus slot)⟩

def busOf : Bus := ⟨bus, slotIds.map (slotOf cfg bus)⟩

/-- The bus that is added for a function, if it is a bridge. -/
def bridgeOf : List (BitVec 8) :=
  if IsBridge cfg bus slot func then [subordinateBus cfg bus slot func] else []

def slotBridges : List (BitVec 8) := (functions cfg bus slot).flatMap (bridgeOf cfg bus slot)

/-- The busses that are added while a bus is scanned. -/
def bridges : List (BitVec 8) := slotIds.flatMap (slotBridges cfg bus)

theorem mem_functions : func ∈ functions cfg bus slot ↔ Present cfg bus slot func := by
  rw [functions, Present]
  by_cases hnone : vendorId cfg bus slot 0 = nonexistent
  · simp only [hnone, ↓reduceIte, not_mem_nil, ne_eq, not_true_eq_false, false_and]
  have hall : func = 0 ∨ func ∈ [1, 2, 3, 4, 5, 6, 7] := by
    revert func
    decide
  by_cases hmulti : MultiFunction cfg bus slot
  · rw [if_neg hnone, if_pos hmulti, mem_cons, mem_filter, decide_eq_true_eq]
    grind
  · rw [if_neg hnone, if_neg hmulti, mem_singleton]
    simp only [hnone, hmulti, ne_eq, not_false_eq_true, true_and, false_and, or_false]

theorem functions_nodup : (functions cfg bus slot).Nodup := by
  rw [functions]
  split_ifs
  · exact nodup_nil
  · rw [nodup_cons]
    refine ⟨?_, List.Nodup.filter _ (by decide)⟩
    rw [mem_filter]
    rintro ⟨hmem, -⟩
    revert hmem
    decide
  · exact nodup_singleton _

end

/-! ## The constructors, apart from the busses they add -/

section
variable (cfg : Config) (add : BitVec 8 → List Bus → Option (List Bus)) (bus : BitVec 8)

theorem newDevice_eq (slot : BitVec 5) (func : BitVec 3) (busses : List Bus) :
    newDevice cfg add bus slot func busses =
      (each add (bridgeOf cfg bus slot func) busses).map (deviceOf cfg bus slot func, ·) := by
  have hinfo : cfg.readd bus slot func regFuninfo = cfg bus slot func 2 := readd_eq ..
  have hnum : cfg.readd bus slot func regBusNum = cfg bus slot func 6 := readd_eq ..
  rw [newDevice, hinfo, hnum, bridgeOf]
  change (if IsBridge cfg bus slot func then
    (add (subordinateBus cfg bus slot func) busses).bind fun bs =>
      some (deviceOf cfg bus slot func, bs)
    else some (deviceOf cfg bus slot func, busses)) = _
  by_cases h : IsBridge cfg bus slot func
  · rw [if_pos h, if_pos h, each_cons]
    cases add (subordinateBus cfg bus slot func) busses with
    | none => rfl
    | some bs => rfl
  · rw [if_neg h, if_neg h]
    rfl

theorem newFunctions_eq (slot : BitVec 5) (funcs : List (BitVec 3)) (devs : List Device)
    (busses : List Bus) : newFunctions cfg add bus slot funcs devs busses =
      (each add ((funcs.filter fun func => vendorId cfg bus slot func ≠ nonexistent).flatMap
        (bridgeOf cfg bus slot)) busses).map (devs ++ (funcs.filter fun func =>
          vendorId cfg bus slot func ≠ nonexistent).map (deviceOf cfg bus slot), ·) := by
  induction funcs generalizing devs busses with
  | nil => simp [newFunctions]
  | cons func funcs ih =>
    rw [newFunctions, readw_vendor]
    by_cases h : vendorId cfg bus slot func = nonexistent
    · simp only [h, ne_eq, not_true_eq_false, ↓reduceIte, ih, decide_false, Bool.false_eq_true,
        not_false_eq_true, filter_cons_of_neg]
    simp only [ne_eq, h, not_false_eq_true, ↓reduceIte, decide_true, filter_cons_of_pos,
      flatMap_cons, each_append, newDevice_eq]
    cases each add (bridgeOf cfg bus slot func) busses with
    | none => rfl
    | some bs =>
      simp [ih]

theorem newSlot_eq (slot : BitVec 5) (busses : List Bus) : newSlot cfg add bus slot busses =
    (each add (slotBridges cfg bus slot) busses).map (slotOf cfg bus slot, ·) := by
  have hid : cfg.readd bus slot 0 0 = cfg bus slot 0 0 := readd_eq ..
  obtain ⟨dev, hdev⟩ : ∃ dev, dev = deviceOf cfg bus slot 0 := ⟨_, rfl⟩
  obtain ⟨make, hmake⟩ : ∃ make : List Device → Slot, make = fun devs =>
      ⟨slot, vendorId cfg bus slot 0, (cfg bus slot 0 0 >>> 16).setWidth 16, devs⟩ := ⟨_, rfl⟩
  have hcode : newSlot cfg add bus slot busses =
      if vendorId cfg bus slot 0 = nonexistent then some (make [], busses)
      else (newDevice cfg add bus slot 0 busses).bind fun r =>
        if MultiFunction cfg bus slot then
          (newFunctions cfg add bus slot [1, 2, 3, 4, 5, 6, 7] [r.1] r.2).bind fun r =>
            some (make r.1, r.2)
        else some (make [r.1], r.2) := by
    rw [newSlot, hid, readw_headertype, hmake]
    rfl
  have hslot : slotOf cfg bus slot = make
    ((functions cfg bus slot).map (deviceOf cfg bus slot)) := by
    rw [hmake, slotOf]
  rw [hcode, hslot, slotBridges, functions, newDevice_eq, ← hdev]
  by_cases hnone : vendorId cfg bus slot 0 = nonexistent
  · rw [if_pos hnone, if_pos hnone]
    rfl
  rw [if_neg hnone, if_neg hnone]
  rw [flatMap_cons, each_append, map_cons, ← hdev]
  cases each add (bridgeOf cfg bus slot 0) busses with
  | none => rfl
  | some bs =>
    by_cases hmulti : MultiFunction cfg bus slot
    · simp only [map_some, bind_some, hmulti, ↓reduceIte, newFunctions_eq]
      cases each add _ bs with
      | none => rfl
      | some _ => rfl
    · simp only [map_some, bind_some, hmulti, ↓reduceIte]
      rfl

theorem newSlots_eq (ids : List (BitVec 5)) (slots : List Slot) (busses : List Bus) :
    newSlots cfg add bus ids slots
      busses = (each add (ids.flatMap (slotBridges cfg bus)) busses).map
      (slots ++ ids.map (slotOf cfg bus), ·) := by
  induction ids generalizing slots busses with
  | nil => simp [newSlots]
  | cons slot ids ih =>
    rw [newSlots, newSlot_eq, flatMap_cons, each_append]
    cases each add (slotBridges cfg bus slot) busses with
    | none => rfl
    | some bs =>
      simp [ih]

theorem newBus_eq (busses : List Bus) : newBus cfg add bus busses =
    (each add (bridges cfg bus) busses).map (busOf cfg bus, ·) := by
  rw [newBus, newSlots_eq, ← bridges]
  cases each add (bridges cfg bus) busses <;> rfl

end

/-! ## The search -/

variable {cfg : Config} {bus : BitVec 8}

/-- A bus leads to the busses whose numbers are read from the bridges on it. -/
theorem mem_bridges {c : BitVec 8} : c ∈ bridges cfg bus ↔ ∃ slot func,
    Present cfg bus slot func ∧ IsBridge cfg bus slot func ∧
      c = subordinateBus cfg bus slot func := by
  have hall : ∀ slot, slot ∈ slotIds := by decide
  simp only [bridges, slotBridges, bridgeOf, mem_flatMap, hall, true_and, mem_functions]
  constructor
  · rintro ⟨slot, func, hpres, hc⟩
    split_ifs at hc with hbridge
    · exact ⟨slot, func, hpres, hbridge, mem_singleton.mp hc⟩
    · cases hc
  · rintro ⟨slot, func, hpres, hbridge, rfl⟩
    exact ⟨slot, func, hpres, by simp [hbridge]⟩

theorem busOf_ids (cfg : Config) (ids : List (BitVec 8)) :
    (ids.map (busOf cfg)).map Bus.id = ids := by
  rw [List.map_map]
  exact List.map_id ids

theorem any_id_iff {busses : List Bus} :
    busses.any (fun b => b.id = bus) = true ↔ bus ∈ busses.map Bus.id := by
  simp

/-- `add_bus` is a search of the busses that records each of them as it is scanned. -/
theorem addBus_eq (cfg : Config) (depth : Nat) (bus : BitVec 8) (ids : List (BitVec 8)) :
    addBus cfg depth bus (ids.map (busOf cfg)) =
      (visit (bridges cfg) depth bus ids).map (List.map (busOf cfg)) := by
  induction depth generalizing bus ids with
  | zero => rfl
  | succ depth ih =>
    have hany : (ids.map (busOf cfg)).any (fun b => b.id = bus) = true ↔ bus ∈ ids := by
      rw [any_id_iff, busOf_ids]
    rw [addBus, visit]
    by_cases hmem : bus ∈ ids
    · rw [if_pos (hany.mpr hmem), if_pos hmem]
      rfl
    · rw [if_neg (hany.not.mpr hmem), if_neg hmem, newBus_eq, each_map ih]
      cases each (visit (bridges cfg) depth) (bridges cfg bus) ids with
      | none => rfl
      | some r => simp

/-- The busses that `init` adds. -/
def roots (cfg : Config) : List (BitVec 8) :=
  if MultiFunction cfg 0 0 then
    ([0, 1, 2, 3, 4, 5, 6, 7].takeWhile fun func => vendorId cfg 0 0 func = nonexistent).map
      (BitVec.setWidth 8)
  else [0]

theorem initLoop_eq (cfg : Config) (depth : Nat) (funcs : List (BitVec 3)) (busses : List Bus) :
    initLoop cfg depth funcs busses = each (addBus cfg depth)
      ((funcs.takeWhile fun func => vendorId cfg 0 0 func = nonexistent).map (BitVec.setWidth 8))
      busses := by
  induction funcs generalizing busses with
  | nil => rfl
  | cons func funcs ih =>
    rw [initLoop, readw_vendor]
    by_cases h : vendorId cfg 0 0 func = nonexistent
    · rw [if_neg (not_not.mpr h), takeWhile_cons_of_pos (by simpa using h), map_cons,
        each_cons]
      exact congrArg (Option.bind _) (funext ih)
    · rw [if_pos h, takeWhile_cons_of_neg (by simpa using h)]
      rfl

theorem init_eq (cfg : Config) (depth : Nat) : init cfg depth =
    (each (visit (bridges cfg) depth) (roots cfg) []).map (List.map (busOf cfg)) := by
  have hmap := each_map (addBus_eq cfg depth) (roots cfg) []
  rw [← hmap, init, readw_headertype, roots]
  change (if MultiFunction cfg 0 0 then _ else _) = _
  by_cases h : MultiFunction cfg 0 0
  · rw [if_pos h, if_pos h, initLoop_eq]
    rfl
  · rw [if_neg h, if_neg h, each_cons, map_nil]
    cases addBus cfg depth 0 [] with
    | none => rfl
    | some bs => rfl

instance busFintype : Fintype (BitVec 8) := Fintype.ofEquiv _ BitVec.equivFin.symm.toEquiv

theorem card_bus : Fintype.card (BitVec 8) = 256 :=
  (Fintype.ofEquiv_card _).trans (Fintype.card_fin _)

/-- If `init` ends, with whatever bound, it has met no cycle. -/
theorem acyclic_of_init {depth : Nat} {busses : List Bus} (h : init cfg depth = some busses) :
    ∀ root ∈ roots cfg, Acyclic (bridges cfg) root := by
  rw [init_eq] at h
  obtain ⟨ids, hids, -⟩ := map_eq_some_iff.mp h
  exact (each_acyclic (visit_acyclic depth) nofun hids).1

/-- **Enumeration ends.** Exactly if no cycle can be reached from the busses that `init` starts
with, it ends, and no bus is listed twice. -/
theorem enumeration_ends (cfg : Config) :
    (∃ busses, (∀ depth, 256 ≤ depth → init cfg depth = some busses) ∧
      (busses.map Bus.id).Nodup) ↔ ∀ root ∈ roots cfg, Acyclic (bridges cfg) root := by
  refine ⟨fun ⟨busses, hrun, _⟩ => acyclic_of_init (hrun 256 le_rfl), fun h => ?_⟩
  obtain ⟨ids, hrun, hvisit⟩ := search_ends h []
  refine ⟨ids.map (busOf cfg), ?_, ?_⟩
  · intro depth hdepth
    rw [init_eq, hrun depth (card_bus ▸ hdepth)]
    rfl
  · rw [busOf_ids]
    exact hvisit.nodup nodup_nil

/-- A host controller and a bridge on bus 0, with the host's header type and the bus numbers of the
bridge. -/
def oneBridge (header num : BitVec 32) : Config := fun bus slot func reg =>
  if bus = 0 ∧ slot = 0 ∧ func = 0 then
    if reg = 0 then 0x12378086 else if reg = 2 then 0x06000000 else if reg = 3 then header else 0
  else if bus = 0 ∧ slot = 1 ∧ func = 0 then
    if reg = 0 then 0x244E8086 else if reg = 2 then 0x06040000 else if reg = 6 then num else 0
  else 0xFFFFFFFF

theorem oneBridge_isBridge {header num : BitVec 32} {slot : BitVec 5}
    {func : BitVec 3} (hbridge : IsBridge (oneBridge header num) bus slot func) : bus = 0 ∧
    slot = 1 ∧ func = 0 := by
  by_cases hhost : bus = 0 ∧ slot = 0 ∧ func = 0
  · obtain ⟨rfl, rfl, rfl⟩ := hhost
    exact absurd hbridge (by decide : (0x06000000#32 >>> 8) ≠ classcodePciBridge)
  by_contra hnot
  have hread : ∀ reg, oneBridge header num bus slot func reg = 0xFFFFFFFF := by
    intro reg
    rw [oneBridge, if_neg hhost, if_neg hnot]
  have hclass : ((0xFFFFFFFF : BitVec 32) >>> 8) = classcodePciBridge := by
    rw [← hread 2]
    exact hbridge
  exact absurd hclass (by decide)

theorem oneBridge_bridges {header num : BitVec 32} {c : BitVec 8}
    (hc : c ∈ bridges (oneBridge header num) bus) : bus = 0 ∧ c = (num >>> 16).setWidth 8 := by
  obtain ⟨slot, func, -, hbridge, rfl⟩ := mem_bridges.mp hc
  obtain ⟨rfl, rfl, rfl⟩ := oneBridge_isBridge hbridge
  exact ⟨rfl, rfl⟩

/-- A bridge without bus numbers leads back to bus 0, which is not recorded until it is scanned. -/
theorem unconfigured_bridge_loops : ¬ ∃ depth busses, init (oneBridge 0 0) depth = some busses := by
  have hroots : 0 ∈ roots (oneBridge 0 0) := by decide
  have hloop : 0 ∈ bridges (oneBridge 0 0) 0 := by decide +kernel
  rintro ⟨depth, busses, hinit⟩
  exact acyclic_of_init hinit 0 hroots 0 .refl (.single hloop)

/-! ## Completeness -/

/-- A bridge on bus `b` has bus `c` as its secondary bus. -/
def Behind (cfg : Config) (b c : BitVec 8) : Prop := ∃ slot func,
  Present cfg b slot func ∧ IsBridge cfg b slot func ∧ c = secondaryBus cfg b slot func

/-- The busses list what can be reached from bus 0. -/
structure Complete (cfg : Config) (busses : List Bus) : Prop where
  first : 0 ∈ busses.map Bus.id
  functions : ∀ b ∈ busses, ∀ slot func,
    (∃ s ∈ b.slots, s.id = slot ∧ func ∈ s.devs.map Device.func) ↔ Present cfg b.id slot func
  once : ∀ b ∈ busses, (b.slots.map Slot.id).Nodup ∧ ∀ s ∈ b.slots, (s.devs.map Device.func).Nodup
  behind : ∀ b ∈ busses, ∀ s ∈ b.slots, ∀ d ∈ s.devs, d.classcode = classcodePciBridge →
    secondaryBus cfg b.id s.id d.func ∈ busses.map Bus.id

theorem slotOf_funcs (cfg : Config) (bus : BitVec 8) (slot : BitVec 5) :
    (slotOf cfg bus slot).devs.map Device.func = functions cfg bus slot := by
  rw [slotOf, List.map_map]
  exact List.map_id _

theorem busOf_functions {slot : BitVec 5} {func : BitVec 3} :
    (∃ s ∈ (busOf cfg bus).slots, s.id = slot ∧ func ∈ s.devs.map Device.func) ↔
      Present cfg bus slot func := by
  have hall : ∀ slot, slot ∈ slotIds := by decide
  rw [← mem_functions]
  constructor
  · rintro ⟨s, hs, rfl, hfunc⟩
    obtain ⟨slot, -, rfl⟩ := List.mem_map.mp hs
    rwa [slotOf_funcs] at hfunc
  · intro hfunc
    refine ⟨slotOf cfg bus slot, List.mem_map_of_mem (hall slot), rfl, ?_⟩
    rwa [slotOf_funcs]

theorem busOf_nodup (cfg : Config) (bus : BitVec 8) : ((busOf cfg bus).slots.map Slot.id).Nodup ∧
      ∀ s ∈ (busOf cfg bus).slots, (s.devs.map Device.func).Nodup := by
  constructor
  · have hids : (busOf cfg bus).slots.map Slot.id = slotIds := by
      rw [busOf, List.map_map]
      exact List.map_id _
    rw [hids]
    decide
  · intro s hs
    obtain ⟨slot, -, rfl⟩ := List.mem_map.mp hs
    rw [slotOf_funcs]
    exact functions_nodup ..

/-- A bus that is found from bus 0 by the numbers that the code takes for those of the busses behind
bridges. -/
def Found (cfg : Config) : BitVec 8 → Prop := ReflTransGen (Leads (bridges cfg)) 0

/-- `init` ends, and everything is listed. -/
def Enumerates (cfg : Config) : Prop :=
  ∃ busses, (∀ depth, 256 ≤ depth → init cfg depth = some busses) ∧ Complete cfg busses

theorem search_host (hhost : ¬ MultiFunction cfg 0 0) (hacyclic : Acyclic (bridges cfg) 0) :
    ∃ ids : List (BitVec 8), (∀ bus, bus ∈ ids ↔ Found cfg bus) ∧
      ∀ depth, 256 ≤ depth → init cfg depth = some (ids.map (busOf cfg)) := by
  have hroots : roots cfg = [0] := if_neg hhost
  obtain ⟨ids, hrun, hvisit⟩ := search_ends (forall_mem_singleton.mpr hacyclic) []
  refine ⟨ids, fun bus => ?_, fun depth hdepth => ?_⟩
  · simp [hvisit.mem_iff, Found]
  · rw [init_eq, hroots, hrun depth (card_bus ▸ hdepth)]
    rfl

theorem complete_iff {ids : List (BitVec 8)} (hids : ∀ bus, bus ∈ ids ↔ Found cfg bus) :
    Complete cfg (ids.map (busOf cfg)) ↔ ∀ b, Found cfg b → ∀ c, Behind cfg b c → Found cfg c := by
  constructor
  · rintro h b hb c ⟨slot, func, hpres, hbridge, rfl⟩
    have hbus := List.mem_map_of_mem (f := busOf cfg) ((hids b).mpr hb)
    obtain ⟨s, hs, rfl, hfunc⟩ := (h.functions _ hbus slot func).mpr hpres
    obtain ⟨d, hd, rfl⟩ := List.mem_map.mp hfunc
    have hlisted := h.behind _ hbus s hs d hd
    rw [busOf_ids, hids] at hlisted
    obtain ⟨slot, -, rfl⟩ := List.mem_map.mp hs
    obtain ⟨func, -, rfl⟩ := List.mem_map.mp hd
    exact hlisted hbridge
  · intro h
    refine ⟨?_, fun b hb slot func => ?_, fun b hb => ?_, fun b hb s hs d hd hbridge => ?_⟩
    · rw [busOf_ids]
      exact (hids 0).mpr .refl
    · obtain ⟨bus, -, rfl⟩ := List.mem_map.mp hb
      exact busOf_functions
    · obtain ⟨bus, -, rfl⟩ := List.mem_map.mp hb
      exact busOf_nodup cfg bus
    · obtain ⟨bus, hbus, rfl⟩ := List.mem_map.mp hb
      have hpres : Present cfg bus s.id d.func :=
        busOf_functions.mp ⟨s, hs, rfl, List.mem_map_of_mem hd⟩
      obtain ⟨slot, -, rfl⟩ := List.mem_map.mp hs
      obtain ⟨func, -, rfl⟩ := List.mem_map.mp hd
      rw [busOf_ids, hids]
      exact h bus ((hids bus).mp hbus) _ ⟨slot, func, hpres, hbridge, rfl⟩

/-- The test of the loop over the host controllers is the wrong way round. -/
theorem init_multi_host (hmulti : MultiFunction cfg 0 0) (hhost : vendorId cfg 0 0 0 ≠ nonexistent)
    (depth : Nat) : init cfg depth = some [] := by
  have hroots : roots cfg = [] := by
    rw [roots, if_pos hmulti, takeWhile_cons_of_neg (by simpa using hhost)]
    rfl
  rw [init_eq, hroots]
  rfl

/-- **Enumeration is complete** exactly behind a host controller with one function, if the code
follows no cycle and finds the secondary bus of each bridge that it finds. -/
theorem enumeration_complete (cfg : Config) (hhost : vendorId cfg 0 0 0 ≠ nonexistent) :
    Enumerates cfg ↔ ¬ MultiFunction cfg 0 0 ∧ Acyclic (bridges cfg) 0 ∧
      ∀ b, Found cfg b → ∀ c, Behind cfg b c → Found cfg c := by
  constructor
  · rintro ⟨busses, hrun, hcomplete⟩
    have hone : ¬ MultiFunction cfg 0 0 := by
      intro hmulti
      have hnone := (init_multi_host hmulti hhost 256).symm.trans (hrun 256 le_rfl)
      obtain rfl := Option.some.inj hnone
      exact absurd hcomplete.first not_mem_nil
    have hacyclic : Acyclic (bridges cfg) 0 := acyclic_of_init (hrun 256 le_rfl) 0 (by
      rw [roots, if_neg hone]
      exact mem_singleton_self 0)
    obtain ⟨ids, hfound, hids⟩ := search_host hone hacyclic
    obtain rfl := Option.some.inj ((hids 256 le_rfl).symm.trans (hrun 256 le_rfl))
    exact ⟨hone, hacyclic, (complete_iff hfound).mp hcomplete⟩
  · rintro ⟨hone, hacyclic, hbehind⟩
    obtain ⟨ids, hfound, hids⟩ := search_host hone hacyclic
    exact ⟨_, hids, (complete_iff hfound).mpr hbehind⟩

/-- The number that the code takes for that of the bus behind a bridge is the right one. -/
def SameNumbers (cfg : Config) : Prop := ∀ bus, Found cfg bus → ∀ slot func,
  Present cfg bus slot func → IsBridge cfg bus slot func →
    subordinateBus cfg bus slot func = secondaryBus cfg bus slot func

theorem SameNumbers.behind (h : SameNumbers cfg) {b c : BitVec 8} (hb : Found cfg b) :
    c ∈ bridges cfg b ↔ Behind cfg b c := by
  rw [mem_bridges]
  constructor
  · rintro ⟨slot, func, hpres, hbridge, rfl⟩
    exact ⟨slot, func, hpres, hbridge, h _ hb _ _ hpres hbridge⟩
  · rintro ⟨slot, func, hpres, hbridge, rfl⟩
    exact ⟨slot, func, hpres, hbridge, (h _ hb _ _ hpres hbridge).symm⟩

/-- So it is if the bridges that the code finds have the same numbers and make no cycle. -/
theorem SameNumbers.found (h : SameNumbers cfg)
    (hacyclic : ∀ bus, ¬ TransGen (Behind cfg) bus bus) :
    Acyclic (bridges cfg) 0 ∧ ∀ b, Found cfg b → ∀ c, Behind cfg b c → Found cfg c := by
  refine ⟨fun bus hbus hcycle => hacyclic bus ?_, fun b hb c hc => hb.tail ((h.behind hb).mpr hc)⟩
  have hlift : ∀ c, TransGen (Leads (bridges cfg)) bus c → TransGen (Behind cfg) bus c := by
    intro c hc
    induction hc with
    | single hc => exact .single ((h.behind hbus).mp hc)
    | tail hprev hc ih => exact ih.tail ((h.behind (hbus.trans hprev.to_reflTransGen)).mp hc)
  exact hlift bus hcycle

theorem oneBridge_behind {header num : BitVec 32} {b c : BitVec 8}
    (hc : Behind (oneBridge header num) b c) : b = 0 ∧ c = (num >>> 8).setWidth 8 := by
  obtain ⟨slot, func, -, hbridge, rfl⟩ := hc
  obtain ⟨rfl, rfl, rfl⟩ := oneBridge_isBridge hbridge
  exact ⟨rfl, rfl⟩

theorem oneBridge_acyclic {header num : BitVec 32} (h : (num >>> 8).setWidth 8 = 1#8)
    (bus : BitVec 8) : ¬ TransGen (Behind (oneBridge header num)) bus bus := by
  apply no_cycle_of_lt BitVec.toNat
  intro b c hc
  obtain ⟨rfl, rfl⟩ := oneBridge_behind hc
  rw [h]
  decide

theorem enumeration_complete_bridge : Enumerates (oneBridge 0 0x00010100) := by
  have hsame : SameNumbers (oneBridge 0 0x00010100) := by
    intro bus _ slot func _ hbridge
    obtain ⟨rfl, rfl, rfl⟩ := oneBridge_isBridge hbridge
    decide
  exact (enumeration_complete _ (by decide)).mpr
    ⟨by decide, hsame.found (oneBridge_acyclic (by decide))⟩

/-- Behind a multi-function host controller no bus is found, and behind a bridge with secondary bus
1 and subordinate bus 2, bus 2 is scanned and not bus 1. -/
theorem missed_busses : ((∀ bus, ¬ TransGen (Behind (oneBridge 0x00800000 0x00010100)) bus bus) ∧
      Present (oneBridge 0x00800000 0x00010100) 0 0 0 ∧
      ∀ depth, init (oneBridge 0x00800000 0x00010100) depth = some []) ∧
    (∀ bus, ¬ TransGen (Behind (oneBridge 0 0x00020100)) bus bus) ∧
      Present (oneBridge 0 0x00020100) 0 0 0 ∧ Behind (oneBridge 0 0x00020100) 0 1 ∧
      ∀ depth, 2 ≤ depth →
        (init (oneBridge 0 0x00020100) depth).map (List.map Bus.id) = some [2, 0] := by
  refine ⟨⟨oneBridge_acyclic (by decide), ⟨by decide, .inl rfl⟩, ?_⟩,
    oneBridge_acyclic (by decide), ⟨by decide, .inl rfl⟩, ?_, ?_⟩
  · exact init_multi_host (by decide) (by decide)
  · exact ⟨1, 0, ⟨by decide, .inl rfl⟩, by decide, by decide⟩
  · intro depth hdepth
    obtain ⟨n, rfl⟩ := Nat.exists_eq_add_of_le' hdepth
    have hroots : roots (oneBridge 0 0x00020100) = [0] := by decide
    have hzero : bridges (oneBridge 0 0x00020100) 0 = [2] := by decide +kernel
    have htwo : bridges (oneBridge 0 0x00020100) 2 = [] := by decide +kernel
    have hinner : visit (bridges (oneBridge 0 0x00020100)) (n + 1) 2 [] = some [2] := by
      rw [visit, if_neg not_mem_nil, htwo]
      rfl
    have houter : visit (bridges (oneBridge 0 0x00020100)) (n + 2) 0 [] = some [2, 0] := by
      rw [visit, if_neg not_mem_nil, hzero, each_cons, hinner]
      rfl
    rw [init_eq, hroots, each_cons, houter]
    rfl

end Sysint.Devices.Pci
