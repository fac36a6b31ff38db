import ShedOS.Lib.Bytes
import ShedOS.Lib.Layout

/-!
# Packed structures in memory

Fields of a packed structure as little-endian words. A store to one field is
read back from it, and changes no other field and nothing outside.
-/

namespace Bytes

variable {m m' : Mem} {a b k n : Nat} {v : BitVec (8 * n)}

def Mem.writeBytes (m : Mem) (a n : Nat) (v : BitVec (8 * n)) : Mem :=
  fun k => if a ≤ k ∧ k < a + n then v.extractLsb' (8 * (k - a)) 8 else m k

theorem Mem.writeBytes_outside (h : k < a ∨ a + n ≤ k) : m.writeBytes a n v k = m k := by
  unfold Mem.writeBytes
  rw [if_neg (by omega)]

theorem Mem.readBytes_writeBytes : (m.writeBytes a n v).readBytes a n = v := by
  refine BitVec.eq_of_getLsbD_eq fun i hi => ?_
  rw [Mem.getLsbD_readBytes hi, Mem.writeBytes, if_pos (by omega), BitVec.getLsbD_extractLsb',
    show 8 * (a + i / 8 - a) + i % 8 = i by omega]
  simp [Nat.mod_lt]

theorem Mem.readBytes_writeBytes_apart (h : a + n ≤ b ∨ b + k ≤ a) :
    (m.writeBytes a n v).readBytes b k = m.readBytes b k :=
  Mem.readBytes_congr fun _ _ _ => Mem.writeBytes_outside (by omega)

end Bytes

namespace Layout.Packed

open Bytes

universe u

variable {F : Type u} [DecidableEq F] {L : Packed F} {f g : F} {m m' : Mem} {base k : Nat}

/-- `p->f`, of a structure at `base`. -/
def get (L : Packed F) (m : Mem) (base : Nat) (f : F) : Nat := (m.readBytes (base + L.offset f) (L.fieldSize f)).toNat

/-- `p->f = v`; what does not fit is cut off. -/
def set (L : Packed F) (m : Mem) (base : Nat) (f : F) (v : Nat) : Mem :=
  m.writeBytes (base + L.offset f) (L.fieldSize f) (BitVec.ofNat _ v)

def Same (L : Packed F) (base : Nat) (m m' : Mem) : Prop := ∀ k, base ≤ k → k < base + L.size → m' k = m k

variable {v : Nat}

@[simp] theorem get_set_same : L.get (L.set m base f v) base f = v % 2 ^ (8 * L.fieldSize f) := by
  rw [get, set, Mem.readBytes_writeBytes, BitVec.toNat_ofNat]

theorem get_set_ne (hf : f ∈ L.map Prod.fst) (hg : g ∈ L.map Prod.fst) (hne : f ≠ g) :
    L.get (L.set m base g v) base f = L.get m base f := by
  have hapart := fields_apart hf hg hne
  exact congrArg BitVec.toNat (Mem.readBytes_writeBytes_apart (by omega))

theorem set_outside (hf : f ∈ L.map Prod.fst) (hk : k < base ∨ base + L.size ≤ k) : L.set m base f v k = m k := by
  have hle := offset_add_fieldSize_le hf
  exact Mem.writeBytes_outside (by omega)

theorem Same.get (h : L.Same base m m') (hf : f ∈ L.map Prod.fst) : L.get m' base f = L.get m base f := by
  have hle := offset_add_fieldSize_le hf
  exact congrArg BitVec.toNat (Mem.readBytes_congr fun k hk hk' => h k (by omega) (by omega))

/-- An initialiser: these fields, in order. -/
def fill (L : Packed F) (m : Mem) (base : Nat) (val : F → Nat) (fs : List F) : Mem :=
  fs.foldl (fun m f => L.set m base f (val f)) m

variable {val : F → Nat}

theorem get_fill : ∀ {fs : List F} {m : Mem}, (∀ g ∈ fs, g ∈ L.map Prod.fst) → f ∈ L.map Prod.fst →
    (f ∈ fs ∨ L.get m base f = val f % 2 ^ (8 * L.fieldSize f)) →
    L.get (L.fill m base val fs) base f = val f % 2 ^ (8 * L.fieldSize f)
  | [], _, _, _, h => h.resolve_left List.not_mem_nil
  | g :: fs, m, hfs, hf, h => by
    refine get_fill (m := L.set m base g (val g)) (fun x hx => hfs x (List.mem_cons_of_mem _ hx)) hf ?_
    by_cases hfg : f = g
    · subst hfg
      exact .inr get_set_same
    · rw [get_set_ne hf (hfs g List.mem_cons_self) hfg]
      exact h.imp_left fun hm => (List.mem_cons.mp hm).resolve_left hfg

theorem fill_outside (hk : k < base ∨ base + L.size ≤ k) : ∀ {fs : List F} {m : Mem}, (∀ g ∈ fs, g ∈ L.map Prod.fst) →
    L.fill m base val fs k = m k
  | [], _, _ => rfl
  | g :: fs, m, hfs => by
    refine (fill_outside hk (m := L.set m base g (val g)) fun x hx => hfs x (List.mem_cons_of_mem _ hx)).trans ?_
    exact set_outside (hfs g List.mem_cons_self) hk

end Layout.Packed
