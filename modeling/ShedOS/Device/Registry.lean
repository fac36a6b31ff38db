import ShedOS.Memory.AddrUtil

/-!
# The registries

`devices` and `kernel_functions` are tables of 255 pointers, and an object
holds its own code. Registering looks for a slot with the same loop in
both, but only one of the two leaves it.
-/

namespace ShedOS.Device.Registry

open Memory (U64)

/-- How a call ends: `kernel_panic` does not return. -/
inductive Outcome (α : Type) where
  | returned (a : α)
  | panicked (a : α)
  deriving DecidableEq, Repr

def Outcome.toOption {α : Type} : Outcome α → Option α
  | .returned a => some a
  | .panicked _ => none

/-- A table with the codes that the objects hold. NULL is 0. -/
structure Table where
  slots : Nat → U64
  code : U64 → Nat

variable {t t' : Table} {object : U64} {k n : Nat} {objects : List U64}

namespace Table

def empty : Table := ⟨fun _ => 0, fun _ => 0⟩

def put (t : Table) (k : Nat) (object : U64) : Table :=
  ⟨Function.update t.slots k object, Function.update t.code object k⟩

end Table

def deviceLoop (t : Table) (device : U64) (id : Nat) : (left : Nat) → Outcome Table
  | 0 => .panicked t
  | left + 1 =>
    if t.slots id = 0 then .returned (t.put id device)
    else deviceLoop t device (id + 1) left

def deviceRegister (t : Table) (device : U64) : Outcome Table := deviceLoop t device 0 255

/-- The loop of `kernel_function_register`: it goes on behind the slot that it
fills. -/
def kernelFunctionLoop (t : Table) (function : U64) (code : Nat) : (left : Nat) → Outcome Table
  | 0 => .panicked t
  | left + 1 =>
    kernelFunctionLoop (if t.slots code = 0 then t.put code function else t) function (code + 1) left

def kernelFunctionRegister (t : Table) (function : U64) : Outcome Table := kernelFunctionLoop t function 0 255

def after (register : Table → U64 → Outcome Table) (objects : List U64) : Option Table :=
  objects.foldlM (fun t object => (register t object).toOption) .empty

theorem after_append {register : Table → U64 → Outcome Table} :
    after register (objects ++ [object]) = (after register objects).bind fun t => (register t object).toOption := by
  simp [after, List.foldlM_append]

-- ---------------------------------------------------------------------------
-- One call
-- ---------------------------------------------------------------------------

/-- `object` got the lowest free code, and nothing else changed. -/
structure Allocated (t t' : Table) (object : U64) : Prop where
  code_lt : t'.code object < 255
  free : t.slots (t'.code object) = 0
  lowest : ∀ i < t'.code object, t.slots i ≠ 0
  slots : t'.slots = Function.update t.slots (t'.code object) object
  others : ∀ p, p ≠ object → t'.code p = t.code p

theorem Allocated.put (hk : k < 255) (hfree : t.slots k = 0) (hlow : ∀ i < k, t.slots i ≠ 0) :
    Allocated t (t.put k object) object := by
  have hcode : (t.put k object).code object = k := Function.update_self _ _ _
  refine ⟨?_, ?_, ?_, ?_, fun p hp => Function.update_of_ne hp _ _⟩
  all_goals rw [hcode]
  · exact hk
  · exact hfree
  · exact hlow
  · rfl

theorem deviceLoop_eq (hn : n ≤ k) (hfree : t.slots k = 0) (hlow : ∀ i < k, t.slots i ≠ 0) {left : Nat}
    (hleft : k < n + left) : deviceLoop t object n left = .returned (t.put k object) := by
  induction left generalizing n with
  | zero => omega
  | succ left ih =>
    rw [deviceLoop]
    rcases Nat.eq_or_lt_of_le hn with rfl | hlt
    · rw [if_pos hfree]
    · rw [if_neg (hlow n hlt)]
      exact ih hlt (by omega)

theorem deviceRegister_eq (hk : k < 255) (hfree : t.slots k = 0) (hlow : ∀ i < k, t.slots i ≠ 0) :
    deviceRegister t object = .returned (t.put k object) :=
  deviceLoop_eq (Nat.zero_le k) hfree hlow (by omega)

theorem deviceLoop_full {left : Nat} (h : ∀ i < n + left, t.slots i ≠ 0) :
    deviceLoop t object n left = .panicked t := by
  induction left generalizing n with
  | zero => rfl
  | succ left ih =>
    rw [deviceLoop, if_neg (h n (by omega))]
    exact ih fun i hi => h i (by omega)

theorem deviceRegister_full (h : ∀ i < 255, t.slots i ≠ 0) : deviceRegister t object = .panicked t :=
  deviceLoop_full fun i hi => h i (by omega)

theorem kernelFunctionLoop_panics {left : Nat} : ∃ t', kernelFunctionLoop t object n left = .panicked t' := by
  induction left generalizing t n with
  | zero => exact ⟨t, rfl⟩
  | succ left ih => exact ih

-- ---------------------------------------------------------------------------
-- A sequence of calls
-- ---------------------------------------------------------------------------

/-- Every call of the sequence returns and allocates, and each object so far is
found under its code. -/
def Registers (register : Table → U64 → Outcome Table) (objects : List U64) : Prop :=
  ∀ k (hk : k < objects.length), ∃ t t', after register (objects.take k) = some t ∧
    register t objects[k] = .returned t' ∧ Allocated t t' objects[k] ∧
      ∀ object ∈ objects.take (k + 1), t'.slots (t'.code object) = object

structure Filled (t : Table) (objects : List U64) : Prop where
  slots : ∀ i, t.slots i = (objects[i]?).getD 0
  lookup : ∀ object ∈ objects, t.slots (t.code object) = object

theorem Filled.empty : Filled .empty [] where
  slots _ := rfl
  lookup _ h := absurd h List.not_mem_nil

theorem Filled.taken (h : Filled t objects) (h0 : 0 ∉ objects) : ∀ i < objects.length, t.slots i ≠ 0 := by
  intro i hi hslot
  rw [h.slots, List.getElem?_eq_getElem hi] at hslot
  exact h0 (hslot ▸ List.getElem_mem hi)

theorem Filled.free (h : Filled t objects) : t.slots objects.length = 0 := by
  rw [h.slots, List.getElem?_eq_none (Nat.le_refl _)]
  rfl

theorem Filled.put (h : Filled t objects) (h0 : 0 ∉ objects) :
    Filled (t.put objects.length object) (objects ++ [object]) := by
  refine ⟨fun i => ?_, fun p hp => ?_⟩
  · change Function.update t.slots objects.length object i = _
    by_cases hi : i = objects.length
    · subst hi
      rw [Function.update_self, List.getElem?_concat_length]
      rfl
    · rw [Function.update_of_ne hi, h.slots]
      rcases Nat.lt_or_gt_of_ne hi with hlt | hgt
      · rw [List.getElem?_append_left hlt]
      · rw [List.getElem?_eq_none (by omega), List.getElem?_eq_none (by simp; omega)]
  · change Function.update t.slots objects.length object (Function.update t.code object objects.length p) = p
    by_cases hpo : p = object
    · subst hpo
      rw [Function.update_self, Function.update_self]
    · have hold : t.slots (t.code p) = p := h.lookup p (by simpa [hpo] using hp)
      rw [Function.update_of_ne hpo, Function.update_of_ne, hold]
      -- the new slot was free
      intro he
      have hmem : p ∈ objects := by simpa [hpo] using hp
      rw [he, h.free] at hold
      exact h0 (hold ▸ hmem)

theorem after_deviceRegister (hlen : objects.length ≤ 255) (h0 : 0 ∉ objects) :
    ∃ t, after deviceRegister objects = some t ∧ Filled t objects := by
  induction objects using List.reverseRecOn with
  | nil => exact ⟨.empty, rfl, .empty⟩
  | append_singleton objects object ih =>
    rw [List.length_append, List.length_singleton] at hlen
    have h0' : 0 ∉ objects := fun h => h0 (List.mem_append_left _ h)
    obtain ⟨t, ht, hfilled⟩ := ih (by omega) h0'
    refine ⟨t.put objects.length object, ?_, hfilled.put h0'⟩
    rw [after_append, ht, Option.bind_some, deviceRegister_eq (by omega) hfilled.free (hfilled.taken h0')]
    rfl

theorem registers_deviceRegister (hlen : objects.length ≤ 255) (h0 : 0 ∉ objects) :
    Registers deviceRegister objects := by
  intro k hk
  have h0' : 0 ∉ objects.take k := fun h => h0 (List.mem_of_mem_take h)
  have htake : (objects.take k).length = k := by rw [List.length_take]; omega
  obtain ⟨t, ht, hfilled⟩ := after_deviceRegister (by omega) h0'
  have hfree : t.slots k = 0 := by simpa only [htake] using hfilled.free
  have hlow : ∀ i < k, t.slots i ≠ 0 := by simpa only [htake] using hfilled.taken h0'
  have hput : Filled (t.put k objects[k]) (objects.take (k + 1)) := by
    have hput : Filled (t.put (objects.take k).length objects[k]) (objects.take k ++ [objects[k]]) := hfilled.put h0'
    rw [List.take_succ_eq_append_getElem hk]
    rwa [htake] at hput
  exact ⟨t, t.put k objects[k], ht, deviceRegister_eq (by omega) hfree hlow, .put (by omega) hfree hlow, hput.lookup⟩

theorem registers_kernelFunctionRegister : Registers kernelFunctionRegister objects ↔ objects = [] := by
  constructor
  · intro h
    cases objects with
    | nil => rfl
    | cons object objects =>
      obtain ⟨t, t', -, hreturn, -⟩ := h 0 (Nat.succ_pos _)
      obtain ⟨t'', hpanic⟩ : ∃ t'', kernelFunctionRegister t object = .panicked t'' := kernelFunctionLoop_panics
      cases hreturn.symm.trans hpanic
  · rintro rfl k hk
    exact absurd hk (Nat.not_lt_zero k)

/-- Devices get their codes one after the other up to the 255th; the next one
panics. The registry of kernel functions does not take a single one. -/
theorem register_codes (hlen : objects.length ≤ 255) (h0 : 0 ∉ objects) :
    Registers deviceRegister objects ∧
      (objects.length = 255 → ∃ t, after deviceRegister objects = some t ∧
        ∀ object, deviceRegister t object = .panicked t) ∧
      (Registers kernelFunctionRegister objects ↔ objects = []) := by
  refine ⟨registers_deviceRegister hlen h0, fun hfull => ?_, registers_kernelFunctionRegister⟩
  obtain ⟨t, ht, hfilled⟩ := after_deviceRegister hlen h0
  have htaken : ∀ i < 255, t.slots i ≠ 0 := hfull ▸ hfilled.taken h0
  exact ⟨t, ht, fun object => deviceRegister_full htaken⟩

theorem register_codes_two : Registers deviceRegister [0x1000, 0x2000] ∧
    ([0x1000#64, 0x2000].length = 255 → ∃ t, after deviceRegister [0x1000, 0x2000] = some t ∧
      ∀ object, deviceRegister t object = .panicked t) ∧
    (Registers kernelFunctionRegister [0x1000, 0x2000] ↔ [0x1000#64, 0x2000] = []) :=
  register_codes (by decide) (by decide)

theorem kernelFunctionRegister_first : ¬ ∀ objects : List U64, objects.length ≤ 255 → 0 ∉ objects →
    Registers deviceRegister objects ∧ Registers kernelFunctionRegister objects := by
  intro h
  obtain ⟨t, t', -, hreturn, -⟩ := (h [0x1000] (by decide) (by decide)).2 0 (by decide)
  obtain ⟨t'', hpanic⟩ : ∃ t'', kernelFunctionRegister t 0x1000 = .panicked t'' := kernelFunctionLoop_panics
  cases hreturn.symm.trans hpanic

end ShedOS.Device.Registry
