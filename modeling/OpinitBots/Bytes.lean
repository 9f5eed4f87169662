import Mathlib.Data.List.Basic
import Mathlib.Tactic.Ring

/-! Byte strings as the key-value store sees them. Keys are ordered as `bytes.Compare`
orders them, and the integers inside keys are written as fixed-width big-endian bytes,
so that this order on keys is the numeric order on the integers. -/
namespace OpinitBots

abbrev Bytes := List UInt8

/-- `bytes.Compare`: lexicographic order of byte strings, a proper prefix first. -/
def compareBytes : Bytes → Bytes → Ordering
  | [], [] => .eq
  | [], _ :: _ => .lt
  | _ :: _, [] => .gt
  | a :: as, b :: bs => (compare a.toNat b.toNat).then (compareBytes as bs)

theorem then_eq_lt {o o' : Ordering} : o.then o' = .lt ↔ o = .lt ∨ (o = .eq ∧ o' = .lt) := by
  cases o <;> simp [Ordering.then]

theorem then_eq_eq {o o' : Ordering} : o.then o' = .eq ↔ o = .eq ∧ o' = .eq := by
  cases o <;> simp [Ordering.then]

theorem then_swap (o o' : Ordering) : (o.then o').swap = o.swap.then o'.swap := by
  cases o <;> rfl

theorem byte_eq_iff {a b : UInt8} : a = b ↔ a.toNat = b.toNat :=
  ⟨congrArg _, UInt8.toNat.inj⟩

theorem compareBytes_eq_iff : ∀ {a b : Bytes}, compareBytes a b = .eq ↔ a = b
  | [], [] | [], _ :: _ | _ :: _, [] => by simp [compareBytes]
  | x :: xs, y :: ys => by
    simp only [compareBytes, then_eq_eq, Nat.compare_eq_eq, compareBytes_eq_iff,
      List.cons.injEq, byte_eq_iff]

@[simp] theorem compareBytes_self (a : Bytes) : compareBytes a a = .eq :=
  compareBytes_eq_iff.mpr rfl

theorem compareBytes_swap : ∀ a b : Bytes, (compareBytes a b).swap = compareBytes b a
  | [], [] | [], _ :: _ | _ :: _, [] => rfl
  | x :: xs, y :: ys => by
    simp only [compareBytes, then_swap, Nat.compare_swap, compareBytes_swap]

@[simp] theorem bne_gt_iff {o : Ordering} : (o != .gt) = true ↔ o ≠ .gt := by
  cases o <;> decide

theorem compareBytes_antisymm {a b : Bytes} (hab : compareBytes a b ≠ .gt)
    (hba : compareBytes b a ≠ .gt) : a = b := by
  rw [← compareBytes_swap] at hba
  cases h : compareBytes a b <;> simp_all [Ordering.swap]
  exact compareBytes_eq_iff.mp h

theorem compareBytes_lt_trans : ∀ {a b c : Bytes},
    compareBytes a b = .lt → compareBytes b c = .lt → compareBytes a c = .lt
  | [], _ :: _, _ :: _, _, _ => rfl
  | x :: xs, y :: ys, z :: zs, hab, hbc => by
    simp only [compareBytes, then_eq_lt, Nat.compare_eq_lt, Nat.compare_eq_eq] at *
    rcases hab with hab | ⟨hab, hab'⟩ <;> rcases hbc with hbc | ⟨hbc, hbc'⟩
    · exact .inl (by omega)
    · exact .inl (by omega)
    · exact .inl (by omega)
    · exact .inr ⟨by omega, compareBytes_lt_trans hab' hbc'⟩
  | [], [], _, h, _ | _ :: _, [], _, h, _ | _, _ :: _, [], _, h => by simp [compareBytes] at h

theorem compareBytes_append_left (p : Bytes) (a b : Bytes) :
    compareBytes (p ++ a) (p ++ b) = compareBytes a b := by
  induction p with
  | nil => rfl
  | cons x p ih =>
    show (compare x.toNat x.toNat).then (compareBytes (p ++ a) (p ++ b)) = _
    rw [ih, Nat.compare_eq_eq.mpr rfl]
    rfl

def beBytes : Nat → Nat → Bytes
  | 0, _ => []
  | w + 1, n => UInt8.ofNat (n / 256 ^ w % 256) :: beBytes w n

/-- `dbtypes.FromUint64Key`. -/
def fromUint64Key (n : Nat) : Bytes := beBytes 8 n

def toUint64Key (b : Bytes) : Nat := b.foldl (fun acc x => acc * 256 + x.toNat) 0

@[simp] theorem beBytes_length (w n : Nat) : (beBytes w n).length = w := by
  induction w <;> simp [beBytes, *]

@[simp] theorem fromUint64Key_length (n : Nat) : (fromUint64Key n).length = 8 :=
  beBytes_length 8 n

theorem byte_toNat (n : Nat) : (UInt8.ofNat (n % 256)).toNat = n % 256 :=
  UInt8.toNat_ofNat_of_lt (Nat.mod_lt _ (by decide))

theorem beBytes_mod (w n : Nat) : beBytes w (n % 256 ^ w) = beBytes w n := by
  induction w generalizing n with
  | zero => rfl
  | succ w ih =>
    have low : n % 256 ^ (w + 1) % 256 ^ w = n % 256 ^ w :=
      Nat.mod_mod_of_dvd n (Nat.pow_dvd_pow 256 (Nat.le_succ w))
    have top : n % 256 ^ (w + 1) / 256 ^ w = n / 256 ^ w % 256 := by
      rw [Nat.pow_succ, Nat.mod_mul_right_div_self]
    simp only [beBytes, top, Nat.mod_mod]
    rw [← ih (n % 256 ^ (w + 1)), low, ih]

theorem compare_div_mod (a b q : Nat) (hq : 0 < q) :
    compare a b = (compare (a / q) (b / q)).then (compare (a % q) (b % q)) := by
  have ha := Nat.div_add_mod a q
  have hb := Nat.div_add_mod b q
  have ra := Nat.mod_lt a hq
  have rb := Nat.mod_lt b hq
  rcases Nat.lt_trichotomy (a / q) (b / q) with h | h | h
  · have hab : a < b := Nat.lt_of_not_ge fun hba => Nat.not_le_of_lt h (Nat.div_le_div_right hba)
    rw [Nat.compare_eq_lt.mpr h, Nat.compare_eq_lt.mpr hab]
    rfl
  · have same : q * (a / q) = q * (b / q) := by rw [h]
    rw [Nat.compare_eq_eq.mpr h]
    show compare a b = compare (a % q) (b % q)
    rcases Nat.lt_trichotomy (a % q) (b % q) with r | r | r
    · rw [Nat.compare_eq_lt.mpr r, Nat.compare_eq_lt.mpr (by omega)]
    · rw [Nat.compare_eq_eq.mpr r, Nat.compare_eq_eq.mpr (by omega)]
    · rw [Nat.compare_eq_gt.mpr r, Nat.compare_eq_gt.mpr (by omega)]
  · have hab : b < a := Nat.lt_of_not_ge fun hba => Nat.not_le_of_lt h (Nat.div_le_div_right hba)
    rw [Nat.compare_eq_gt.mpr h, Nat.compare_eq_gt.mpr hab]
    rfl

theorem compareBytes_beBytes (w : Nat) {a b : Nat} (ha : a < 256 ^ w) (hb : b < 256 ^ w) :
    compareBytes (beBytes w a) (beBytes w b) = compare a b := by
  induction w generalizing a b with
  | zero =>
    obtain rfl : a = 0 := by simpa using ha
    obtain rfl : b = 0 := by simpa using hb
    rfl
  | succ w ih =>
    have pos : 0 < 256 ^ w := Nat.pos_pow_of_pos w (by decide)
    have da : a / 256 ^ w < 256 := Nat.div_lt_of_lt_mul (by rwa [← Nat.pow_succ])
    have db : b / 256 ^ w < 256 := Nat.div_lt_of_lt_mul (by rwa [← Nat.pow_succ])
    have ea : (UInt8.ofNat (a / 256 ^ w)).toNat = a / 256 ^ w := UInt8.toNat_ofNat_of_lt da
    have eb : (UInt8.ofNat (b / 256 ^ w)).toNat = b / 256 ^ w := UInt8.toNat_ofNat_of_lt db
    rw [compare_div_mod a b _ pos, ← ih (Nat.mod_lt a pos) (Nat.mod_lt b pos), beBytes_mod,
      beBytes_mod]
    simp only [beBytes, compareBytes, Nat.mod_eq_of_lt da, Nat.mod_eq_of_lt db, ea, eb]

theorem foldl_beBytes (w n acc : Nat) :
    (beBytes w n).foldl (fun acc x => acc * 256 + x.toNat) acc = acc * 256 ^ w + n % 256 ^ w := by
  induction w generalizing acc with
  | zero => simp [beBytes, Nat.mod_one]
  | succ w ih =>
    simp only [beBytes, List.foldl_cons, byte_toNat, ih]
    rw [Nat.mod_pow_succ, Nat.pow_succ]
    ring

theorem toUint64Key_fromUint64Key (n : Nat) : toUint64Key (fromUint64Key n) = n % 2 ^ 64 := by
  simp [toUint64Key, fromUint64Key, foldl_beBytes]

theorem compareBytes_fromUint64Key {a b : Nat} (ha : a < 2 ^ 64) (hb : b < 2 ^ 64) :
    compareBytes (fromUint64Key a) (fromUint64Key b) = compare a b :=
  compareBytes_beBytes 8 ha hb

theorem fromUint64Key_inj {a b : Nat} (ha : a < 2 ^ 64) (hb : b < 2 ^ 64) :
    fromUint64Key a = fromUint64Key b ↔ a = b := by
  refine ⟨fun same => ?_, congrArg _⟩
  have decoded := congrArg toUint64Key same
  rwa [toUint64Key_fromUint64Key, toUint64Key_fromUint64Key, Nat.mod_eq_of_lt ha,
    Nat.mod_eq_of_lt hb] at decoded

theorem byte_ofNat_inj {a b : Nat} (ha : a < 256) (hb : b < 256) :
    UInt8.ofNat a = UInt8.ofNat b ↔ a = b := by
  refine ⟨fun same => ?_, congrArg _⟩
  have decoded := congrArg UInt8.toNat same
  rwa [UInt8.toNat_ofNat_of_lt ha, UInt8.toNat_ofNat_of_lt hb] at decoded

end OpinitBots
