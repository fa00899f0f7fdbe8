import Mathlib.Data.Nat.ModEq
import Mathlib.Tactic.Ring

namespace SystemProgramming.Lib

/-!
# Byte memory and little-endian words

Byte-addressed memory as a total function, with the little-endian multi-byte loads and
stores a C program performs on it, plus the same encoding on byte lists:

* `Mem.store m n a v` / `Mem.load m n a` — an `n`-byte store and load at address `a`;
  `load_store_same` and `load_store_disjoint` are the two rules every client uses.
* `Mem.fill` / `Mem.copy` — `memset` and (non-overlapping) `memcpy`.
* `leBytes n v` / `leValue bs` — the byte list of an `n`-byte integer and back
  (`leValue_leBytes`).
-/

/-- Byte-addressed memory. -/
abbrev Mem := ℕ → UInt8

namespace Mem

/-- `n`-byte little-endian store of `v` at `a`; bits above `8 * n` are dropped. -/
def store (m : Mem) (n a v : ℕ) : Mem := fun x =>
  if a ≤ x ∧ x < a + n then UInt8.ofNat (v / 256 ^ (x - a)) else m x

/-- The little-endian value of the `n` bytes at `a`. -/
def load (m : Mem) : ℕ → ℕ → ℕ
  | 0, _ => 0
  | n + 1, a => (m a).toNat + 256 * load m n (a + 1)

/-- `memset`: `n` copies of `b` from `a` on. -/
def fill (m : Mem) (a n : ℕ) (b : UInt8) : Mem := fun x =>
  if a ≤ x ∧ x < a + n then b else m x

/-- `memcpy` of `n` bytes from `src` to `dst`; the ranges must not overlap. -/
def copy (m : Mem) (dst src n : ℕ) : Mem := fun x =>
  if dst ≤ x ∧ x < dst + n then m (src + (x - dst)) else m x

theorem store_apply_outside (m : Mem) {n a v x : ℕ} (hx : x < a ∨ a + n ≤ x) :
    m.store n a v x = m x :=
  if_neg (by omega)

theorem fill_apply_outside (m : Mem) {a n x : ℕ} {b : UInt8} (hx : x < a ∨ a + n ≤ x) :
    m.fill a n b x = m x :=
  if_neg (by omega)

theorem copy_apply_outside (m : Mem) {dst src n x : ℕ} (hx : x < dst ∨ dst + n ≤ x) :
    m.copy dst src n x = m x :=
  if_neg (by omega)

theorem copy_apply (m : Mem) {dst src n i : ℕ} (hi : i < n) :
    m.copy dst src n (dst + i) = m (src + i) := by
  rw [copy, if_pos (by omega), Nat.add_sub_cancel_left]

/-- A load reads only its own bytes. -/
theorem load_congr {m m' : Mem} : ∀ {n a : ℕ},
    (∀ x, a ≤ x → x < a + n → m' x = m x) → m'.load n a = m.load n a
  | 0, _, _ => rfl
  | n + 1, a, h => by
    have ih : m'.load n (a + 1) = m.load n (a + 1) :=
      load_congr (fun x h1 h2 => h x (by omega) (by omega))
    rw [load, load, ih, h a le_rfl (by omega)]

theorem load_lt (m : Mem) : ∀ n a : ℕ, m.load n a < 256 ^ n
  | 0, _ => by simp [load]
  | n + 1, a => by
    have ih := load_lt m n (a + 1)
    have hb : (m a).toNat < 256 := (m a).toNat_lt
    rw [load, pow_succ]
    omega

/-- The bytes of `v` read back as `v`, up to the width of the load. -/
theorem load_of_bytes {m : Mem} : ∀ {n a v : ℕ},
    (∀ i, i < n → m (a + i) = UInt8.ofNat (v / 256 ^ i)) → m.load n a = v % 256 ^ n
  | 0, _, _, _ => by simp [load, Nat.mod_one]
  | n + 1, a, v, h => by
    have ih : m.load n (a + 1) = v / 256 % 256 ^ n := by
      refine load_of_bytes (fun i hi => ?_)
      rw [Nat.add_right_comm, Nat.add_assoc, h (i + 1) (by omega), Nat.div_div_eq_div_mul,
        pow_succ']
    have h0 : (m a).toNat = v % 256 := by
      have hbyte := h 0 (by omega)
      rw [Nat.add_zero, pow_zero, Nat.div_one] at hbyte
      rw [hbyte]; rfl
    rw [load, ih, h0, pow_succ', Nat.mod_mul]

/-- **Read after write.** -/
theorem load_store_same (m : Mem) (n a v : ℕ) : (m.store n a v).load n a = v % 256 ^ n := by
  refine load_of_bytes (fun i hi => ?_)
  rw [store, if_pos (by omega), Nat.add_sub_cancel_left]

/-- A store leaves every load of disjoint bytes alone. -/
theorem load_store_disjoint (m : Mem) {n a v k b : ℕ} (h : b + k ≤ a ∨ a + n ≤ b) :
    (m.store n a v).load k b = m.load k b :=
  load_congr (fun _ h1 h2 => store_apply_outside m (by omega))

end Mem

/-! ### Byte lists -/

/-- The `n` little-endian bytes of `v`. -/
def leBytes : ℕ → ℕ → List UInt8
  | 0, _ => []
  | n + 1, v => UInt8.ofNat v :: leBytes n (v / 256)

/-- The number with the given little-endian bytes. -/
def leValue : List UInt8 → ℕ
  | [] => 0
  | b :: bs => b.toNat + 256 * leValue bs

@[simp] theorem length_leBytes : ∀ n v : ℕ, (leBytes n v).length = n
  | 0, _ => rfl
  | n + 1, v => by rw [leBytes, List.length_cons, length_leBytes n]

theorem leValue_lt : ∀ bs : List UInt8, leValue bs < 256 ^ bs.length
  | [] => by simp [leValue]
  | b :: bs => by
    have ih := leValue_lt bs
    have hb : b.toNat < 256 := b.toNat_lt
    rw [leValue, List.length_cons, pow_succ]
    omega

/-- Decoding an encoded number truncates it to the width. -/
theorem leValue_leBytes : ∀ n v : ℕ, leValue (leBytes n v) = v % 256 ^ n
  | 0, v => by simp [leBytes, leValue, Nat.mod_one]
  | n + 1, v => by
    have h0 : (UInt8.ofNat v).toNat = v % 256 := rfl
    rw [leBytes, leValue, leValue_leBytes n, h0, pow_succ', Nat.mod_mul]

/-- Encoding a decoded list pads it with zeros. -/
theorem leBytes_leValue : ∀ (n : ℕ) (bs : List UInt8), bs.length ≤ n →
    leBytes n (leValue bs) = bs ++ List.replicate (n - bs.length) 0
  | 0, bs, h => by
    obtain rfl := List.length_eq_zero_iff.mp (Nat.le_zero.mp h)
    rfl
  | n + 1, [], _ => by
    have ih := leBytes_leValue n [] (Nat.zero_le n)
    rw [leValue] at ih
    rw [leValue, leBytes, Nat.zero_div, ih]
    rfl
  | n + 1, b :: bs, h => by
    have hle : bs.length ≤ n := Nat.le_of_succ_le_succ h
    have hb : b.toNat < 256 := b.toNat_lt
    have hdiv : (b.toNat + 256 * leValue bs) / 256 = leValue bs := by omega
    have hmod : UInt8.ofNat (b.toNat + 256 * leValue bs) = b := by
      apply UInt8.toNat_inj.mp
      show (b.toNat + 256 * leValue bs) % 256 = b.toNat
      omega
    rw [leValue, leBytes, hdiv, hmod, leBytes_leValue n bs hle, List.length_cons,
      Nat.add_sub_add_right]
    rfl

/-- High zero bytes do not count. -/
theorem leValue_append_zeros (k : ℕ) : ∀ bs : List UInt8,
    leValue (bs ++ List.replicate k 0) = leValue bs
  | [] => by
    induction k with
    | zero => rfl
    | succ k ih =>
      rw [List.nil_append] at ih ⊢
      show (0 : UInt8).toNat + 256 * leValue (List.replicate k 0) = 0
      rw [ih]
      rfl
  | b :: bs => by rw [List.cons_append, leValue, leValue, leValue_append_zeros k bs]

end SystemProgramming.Lib
