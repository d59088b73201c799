import AlphaDb.Lib.ByteMemory
import AlphaDb.Lib.Comparator
import AlphaDb.Table.Row

/-! The order of the values of a column (`index/b+tree/comparator`). A tuple is the list of its
bytes. An `int` has four bytes and a `long` eight, the lowest first. -/
namespace AlphaDb.Index

open ByteMemory Comparator Table

/-- Bytes of `char` compared as numbers without sign, up to the first that is 0 in both; nothing
where a string is shorter than `n` and goes on without a 0. -/
def strncmp : ℕ → List UInt8 → List UInt8 → Option ℤ
  | 0, _, _ => some 0
  | n + 1, x :: a, y :: b =>
    if x ≠ y then some ((x.toNat : ℤ) - y.toNat) else if x = 0 then some 0 else strncmp n a b
  | _ + 1, _, _ => none

/-- The number with sign in `w` bytes. -/
def signed (w : ℕ) (bytes : List UInt8) : ℤ :=
  if leNat bytes < 2 ^ (8 * w - 1) then leNat bytes else leNat bytes - 2 ^ (8 * w)

/-- The number that a pointer cast to an integer of `w` bytes leads to. -/
def readSigned (w : ℕ) (t : List UInt8) : Option ℤ := (slice t 0 w).map (signed w)

/-- The comparisons of one branch, in their order. -/
def compareSigned (w : ℕ) (t1 t2 : List UInt8) : Option ℤ := do
  let v1 ← readSigned w t1
  let v2 ← readSigned w t2
  some (if v1 < v2 then -1 else if v1 = v2 then 0 else 1)

/-- `comparator::compare`, without what it does to `FLOAT`, `DOUBLE` and `CHAR`. -/
def compare (type : DataType) (t1 t2 : List UInt8) : Option ℤ :=
  match type with
  | .int => compareSigned 4 t1 t2
  | .long => compareSigned 8 t1 t2
  | .varchar => strncmp (min t1.length t2.length) t1 t2
  | .unknown => some 0
  | .float | .double | .char => none

/-- The values of a type. -/
def values : DataType → Set (List UInt8)
  | .varchar => Set.univ
  | type => {t | t.length = type.size}

/-- Up to a 0, the two strings are the same over the length of the shorter one. -/
def Agree (a b : List UInt8) : Prop :=
  (a.take (min a.length b.length)).takeWhile (· ≠ 0) =
    (b.take (min a.length b.length)).takeWhile (· ≠ 0)

instance (a b : List UInt8) : Decidable (Agree a b) := inferInstanceAs (Decidable (_ = _))

/-! ### Numbers -/

theorem leNat_injective : ∀ {a b : List UInt8}, a.length = b.length → leNat a = leNat b → a = b
  | [], [], _, _ => rfl
  | x :: a, y :: b, hlen, h => by
    have hx := x.toNat_lt
    have hy := y.toNat_lt
    simp only [leNat, List.foldr_cons] at h
    obtain ⟨hxy, hab⟩ : x.toNat = y.toNat ∧ leNat a = leNat b := by
      simp only [leNat]
      omega
    rw [UInt8.toNat_inj.mp hxy, leNat_injective (by simpa using hlen) hab]

theorem leNat_lt (a : List UInt8) : leNat a < 256 ^ a.length := by
  induction a with
  | nil => simp [leNat]
  | cons x a ih =>
    have hx := x.toNat_lt
    simp only [leNat, List.foldr_cons, List.length_cons, pow_succ] at ih ⊢
    omega

theorem signed_injective {w : ℕ} {a b : List UInt8} (ha : a.length = w) (hb : b.length = w)
    (h : signed w a = signed w b) : a = b := by
  have hpow : (256 : ℕ) ^ w = 2 ^ (8 * w) := by rw [pow_mul]; norm_num
  have hla := leNat_lt a
  have hlb := leNat_lt b
  rw [ha, hpow] at hla
  rw [hb, hpow] at hlb
  have hcast : ((2 ^ (8 * w) : ℕ) : ℤ) = 2 ^ (8 * w) := by norm_cast
  apply leNat_injective (ha.trans hb.symm)
  unfold signed at h
  split at h <;> split at h <;> omega

theorem compareSigned_compares {w : ℕ} {a b : List UInt8} (ha : a.length = w) (hb : b.length = w) :
    ∃ m, compareSigned w a b = some m ∧ Compares m (signed w a) (signed w b) := by
  have hread : ∀ t : List UInt8, t.length = w → readSigned w t = some (signed w t) := by
    rintro t rfl
    simp [readSigned, slice]
  exact ⟨_, by rw [compareSigned, hread a ha, hread b hb]; rfl, compares_ite _ _⟩

/-- Numbers of one width are in their usual order. -/
theorem compareSigned_totalOrderOn {w : ℕ} {s : Set (List UInt8)} (hs : ∀ t ∈ s, t.length = w) :
    TotalOrderOn (compareSigned w) s := by
  apply TotalOrderOn.of_key (signed w)
  · exact fun a ha b hb => compareSigned_compares (hs a ha) (hs b hb)
  · exact fun a ha b hb h => signed_injective (hs a ha) (hs b hb) h

/-! ### Strings -/

/-- The bytes as numbers, in lexicographic order. -/
def numbers (t : List UInt8) : List ℕ := t.map UInt8.toNat

theorem numbers_injective : Function.Injective numbers :=
  List.map_injective_iff.mpr fun _ _ => UInt8.toNat_inj.mp

/-- Where two strings do not agree, the first difference decides. -/
theorem strncmp_spec {n : ℕ} {a b : List UInt8} (ha : n ≤ a.length) (hb : n ≤ b.length) :
    ∃ m, strncmp n a b = some m ∧
      (m = 0 ↔ (a.take n).takeWhile (· ≠ 0) = (b.take n).takeWhile (· ≠ 0)) ∧
      (m < 0 → numbers a < numbers b) ∧ (0 < m → numbers b < numbers a) := by
  induction n generalizing a b with
  | zero => exact ⟨0, by rw [strncmp], by simp, by simp, by simp⟩
  | succ n ih =>
    obtain ⟨x, a, rfl⟩ := List.exists_cons_of_length_pos (show 0 < a.length by omega)
    obtain ⟨y, b, rfl⟩ := List.exists_cons_of_length_pos (show 0 < b.length by omega)
    by_cases hxy : x = y
    · subst hxy
      by_cases hx : x = 0
      · exact ⟨0, by simp [strncmp, hx], by simp [hx], by simp, by simp⟩
      · obtain ⟨m, hm, hzero, hlt, hgt⟩ :=
          ih (Nat.le_of_succ_le_succ ha) (Nat.le_of_succ_le_succ hb)
        refine ⟨m, by simp [strncmp, hx, hm], ?_, ?_, ?_⟩
        · simpa [hx] using hzero
        · exact fun h => List.cons_lt_cons_iff.mpr (.inr ⟨rfl, hlt h⟩)
        · exact fun h => List.cons_lt_cons_iff.mpr (.inr ⟨rfl, hgt h⟩)
    · have hne : x.toNat ≠ y.toNat := fun h => hxy (UInt8.toNat_inj.mp h)
      refine ⟨(x.toNat : ℤ) - y.toNat, by simp [strncmp, hxy], ?_, ?_, ?_⟩
      · apply iff_of_false (by omega)
        by_cases hx : x = 0 <;> by_cases hy : y = 0 <;> simp_all
      · exact fun h => List.cons_lt_cons_iff.mpr (.inl (by omega))
      · exact fun h => List.cons_lt_cons_iff.mpr (.inl (by omega))

theorem compare_varchar (a b : List UInt8) : ∃ m, compare .varchar a b = some m ∧
    (m = 0 ↔ Agree a b) ∧ (m < 0 → numbers a < numbers b) ∧ (0 < m → numbers b < numbers a) :=
  strncmp_spec (min_le_left _ _) (min_le_right _ _)

/-- Strings of which no two agree are in the order of dictionaries. -/
theorem compare_varchar_totalOrderOn {s : Set (List UInt8)}
    (hs : ∀ a ∈ s, ∀ b ∈ s, Agree a b → a = b) : TotalOrderOn (compare .varchar) s := by
  apply TotalOrderOn.of_key numbers
  · intro a ha b hb
    obtain ⟨m, hm, hzero, hlt, hgt⟩ := compare_varchar a b
    refine ⟨m, hm, ?_⟩
    rcases lt_trichotomy m 0 with h | rfl | h
    · exact .inl ⟨h, hlt h⟩
    · exact .inr (.inl ⟨rfl, congrArg numbers (hs a ha b hb (hzero.mp rfl))⟩)
    · exact .inr (.inr ⟨h, hgt h⟩)
  · exact numbers_injective.injOn

/-- On numbers the comparator is a total order; on strings it is one where no two of them agree, and
only there. -/
theorem compare_totalOrderOn_iff {type : DataType} {s : Set (List UInt8)}
    (htype : type = .int ∨ type = .long ∨ type = .varchar) (hs : s ⊆ values type) :
    TotalOrderOn (compare type) s ↔
      (type = .varchar → ∀ a ∈ s, ∀ b ∈ s, Agree a b → a = b) := by
  rcases htype with rfl | rfl | rfl
  · exact iff_of_true (compareSigned_totalOrderOn hs) (by simp)
  · exact iff_of_true (compareSigned_totalOrderOn hs) (by simp)
  · constructor
    · intro h _ a ha b hb hab
      obtain ⟨m, hm, hzero, -⟩ := compare_varchar a b
      obtain rfl := hzero.mpr hab
      exact h.eq_of_zero a ha b hb hm
    · exact fun h => compare_varchar_totalOrderOn (h rfl)

/-- Three strings, none of which begins another. -/
theorem compare_totalOrderOn_strings :
    TotalOrderOn (compare .varchar) {[98, 97], [98, 98], [99]} := by
  refine (compare_totalOrderOn_iff (.inr (.inr rfl)) (Set.subset_univ _)).mpr ?_
  intro _
  simp only [Set.mem_insert_iff, Set.mem_singleton_iff]
  rintro a (rfl | rfl | rfl) b (rfl | rfl | rfl) <;> decide

/-- `ac`, `a` and `ab` compare equal in turn, but `ac` is greater than `ab`. -/
theorem compare_not_transitive :
    compare .varchar [97, 99] [97] = some 0 ∧ compare .varchar [97] [97, 98] = some 0 ∧
      compare .varchar [97, 99] [97, 98] = some 1 ∧
      ¬ ∀ type : DataType, type = .int ∨ type = .long ∨ type = .varchar →
        TotalOrderOn (compare type) (values type) := by
  refine ⟨by decide, by decide, by decide, ?_⟩
  intro h
  have := (h .varchar (.inr (.inr rfl))).eq_of_zero [97] trivial [97, 98] trivial (by decide)
  cases this

end AlphaDb.Index
