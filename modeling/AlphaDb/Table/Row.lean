import Mathlib

/-! The byte form of a row (`table/row`). A pointer is the list of bytes from there to the end of
its allocation; a function returns nothing where the source leaves one, falls off the end of a
function with a result, or writes past the size of a vector. -/
namespace AlphaDb.Table

inductive DataType
  | unknown
  | int
  | long
  | float
  | double
  | char
  | varchar
  deriving DecidableEq, Repr

namespace DataType

def code : DataType → ℕ
  | unknown => 0
  | int => 1
  | long => 2
  | float => 3
  | double => 4
  | char => 5
  | varchar => 6

/-- The bytes of a value of fixed length. -/
def size : DataType → ℕ
  | int | float => 4
  | long | double => 8
  | char => 1
  | unknown | varchar => 0

/-- How a value lies in memory, where a string is followed by a zero. -/
def stored : DataType → List UInt8 → List UInt8
  | varchar, value => value ++ [0]
  | _, value => value

end DataType

namespace Row

variable {c : UInt8} {ret ptr cs : List UInt8} {s : List DataType}
  {values vs : List (Option (List UInt8))} {fuel i : ℕ}

/-- The characters before the terminating zero. -/
def cString (data : List UInt8) : List UInt8 := data.takeWhile (· ≠ 0)

/-- An `int` as it lies in memory. -/
def intBytes (n : ℕ) : List UInt8 := (List.range 4).map fun k => UInt8.ofNat (n / 256 ^ k)

/-- `strcat`: the source string, up to the first zero in its allocation, behind the first zero of
the destination. -/
def strcat (dest src : List UInt8) : Option (List UInt8) :=
  let n := (cString dest).length
  let s := cString src
  if 0 ∈ dest ∧ 0 ∈ src ∧ n + s.length + 1 ≤ dest.length then
    some (cString dest ++ s ++ 0 :: dest.drop (n + s.length + 1))
  else none

/-- The column is written without a terminating zero. The tag has the id shifted to the right, which
for ids below 8 leaves the type alone. -/
def encodeColumn (data : List UInt8) (type : DataType) (id : ℕ) : Option (List UInt8) :=
  let b := UInt8.ofNat (id >>> 3 ||| type.code)
  match type with
  | .unknown => some [b]
  | .varchar =>
    let len := (cString data).length
    if 0 ∈ data ∧ len + 5 < 2 ^ 31 then some (b :: intBytes len ++ cString data) else none
  | type => if type.size ≤ data.length then some (b :: data.take type.size) else none

/-- The loop of `encode`, from column `i` on. -/
def encodeFrom (s : List DataType) :
    ℕ → List (Option (List UInt8)) → List UInt8 → Option (List UInt8)
  | _, [], ret => some ret
  | i, none :: values, ret => encodeFrom s (i + 1) values ret
  | i, some data :: values, ret =>
    s[i]?.bind fun type => (encodeColumn data type i).bind fun cs =>
      (strcat ret cs).bind fun ret => encodeFrom s (i + 1) values ret

/-- `encode`; its local `ret` is not initialised, so what it points at is a parameter. -/
def encode (ret : List UInt8) (values : List (Option (List UInt8))) (s : List DataType) :
    Option (List UInt8) :=
  encodeFrom s 0 values ret

/-- A `char` as an `int`. -/
def signed (b : UInt8) : BitVec 32 := b.toBitVec.signExtend 32

/-- The type in a tag, where the source sets the three bits instead of reading them. -/
def tagType (b : UInt8) : ℤ := (signed b ||| 7#32).toInt

def tagId (b : UInt8) : ℤ := ((signed b).sshiftRight 3).toInt

def intAt (ptr : List UInt8) : ℕ := (ptr.take 4).foldr (fun b n => b.toNat + 256 * n) 0

/-- `decode_column`. Its pointer is a copy, so that the caller's does not move. -/
def decodeColumn : List UInt8 → Option (ℤ × List UInt8)
  | [] => none
  | b :: ptr =>
    let fixed (n : ℕ) := if n ≤ ptr.length then some (tagId b, ptr.take n) else none
    if tagType b = 1 then fixed 4
    else if tagType b = 2 then fixed 8
    else if tagType b = 3 then fixed 4
    else if tagType b = 4 then fixed 8
    else if tagType b = 5 then fixed 1
    else if tagType b = 6 then
      if 4 + intAt ptr ≤ ptr.length then some (tagId b, (ptr.drop 4).take (intAt ptr)) else none
    else none

/-- The loop of `decode`, which asks for the same column again and again. -/
def decodeLoop : ℕ → List UInt8 → List (Option (List UInt8)) →
    Option (List (Option (List UInt8)))
  | 0, _, _ => none
  | fuel + 1, ptr, vs =>
    match ptr with
    | [] => none
    | c :: _ =>
      if c = 0 then some vs
      else
        (decodeColumn ptr).bind fun x =>
          if 0 ≤ x.1 ∧ x.1 < vs.length then
            decodeLoop fuel ptr (vs.set x.1.toNat (some x.2))
          else none

/-- `decode` within some number of rounds. It reserves room for the columns of the schema, which
leaves the size of the vector at zero. -/
def decode (fuel : ℕ) (ptr : List UInt8) : Option (List (Option (List UInt8))) :=
  decodeLoop fuel ptr []

/-- The pointers a row of values is handed to `encode` with. -/
def pointers (s : List DataType) (values : List (Option (List UInt8))) :
    List (Option (List UInt8)) :=
  List.zipWith (fun type value => value.map type.stored) s values

/-- A row comes back: `encode` and `decode` return, every value stands at its own column, and the
null columns have none. -/
def RoundTrips (ret : List UInt8) (s : List DataType) (values : List (Option (List UInt8))) :
    Prop :=
  ∃ ptr fuel vs, encode ret (pointers s values) s = some ptr ∧ decode fuel ptr = some vs ∧
    ∀ i : ℕ, vs[i]?.join = values[i]?.join

/-- No tag has one of the six types. -/
theorem tagType_not_mem (b : UInt8) : ¬ (1 ≤ tagType b ∧ tagType b ≤ 6) := by
  have h : ∀ v : BitVec 8, ¬ (1 ≤ (v.signExtend 32 ||| 7#32).toInt ∧
      (v.signExtend 32 ||| 7#32).toInt ≤ 6) := by
    decide +kernel
  exact h b.toBitVec

theorem decodeColumn_eq_none (ptr : List UInt8) : decodeColumn ptr = none := by
  cases ptr with
  | nil => rfl
  | cons b ptr =>
    have h := tagType_not_mem b
    have hne : ∀ k : ℤ, 1 ≤ k → k ≤ 6 → tagType b ≠ k := by
      intro k hone hsix heq
      exact h (heq ▸ ⟨hone, hsix⟩)
    simp [decodeColumn, hne]

/-- Only the empty row can be decoded. -/
theorem decode_eq_some (h : decode fuel ptr = some vs) : ptr.head? = some 0 ∧ vs = [] := by
  cases fuel with
  | zero => simp [decode, decodeLoop] at h
  | succ fuel =>
    cases ptr with
    | nil => simp [decode, decodeLoop] at h
    | cons c ptr =>
      by_cases hc : c = 0
      · simp only [decode, decodeLoop, if_pos hc, Option.some.injEq] at h
        exact ⟨by simp [hc], h.symm⟩
      · simp [decode, decodeLoop, hc, decodeColumn_eq_none] at h

theorem encodeFrom_of_null (h : ∀ v ∈ values, v = none) :
    encodeFrom s i values ret = some ret := by
  induction values generalizing i with
  | nil => rfl
  | cons v values ih =>
    obtain rfl := h v List.mem_cons_self
    exact ih fun v hv => h v (List.mem_cons_of_mem _ hv)

theorem pointers_of_null (h : ∀ v ∈ values, v = none) : ∀ v ∈ pointers s values, v = none := by
  induction values generalizing s with
  | nil => simp [pointers]
  | cons v values ih =>
    obtain rfl := h v List.mem_cons_self
    have hrest : ∀ v ∈ values, v = none := fun v hv => h v (List.mem_cons_of_mem _ hv)
    cases s with
    | nil => simp [pointers]
    | cons type s =>
      intro v hv
      rcases List.mem_cons.mp hv with rfl | hv
      · rfl
      · exact ih hrest v hv

/-- A row of nulls is the memory at the pointer `encode` returns without having set it. -/
theorem encode_of_null (h : ∀ v ∈ values, v = none) :
    encode ret (pointers s values) s = some ret :=
  encodeFrom_of_null (pointers_of_null h)

/-- A row comes back exactly if all its columns are null and the uninitialised pointer happens to
point at a zero. -/
theorem roundTrips_iff (ret : List UInt8) (s : List DataType)
    (values : List (Option (List UInt8))) :
    RoundTrips ret s values ↔ (∀ v ∈ values, v = none) ∧ ret.head? = some 0 := by
  constructor
  · rintro ⟨ptr, fuel, vs, hencode, hdecode, hvalues⟩
    obtain ⟨hzero, rfl⟩ := decode_eq_some hdecode
    have hnull : ∀ v ∈ values, v = none := by
      intro v hv
      obtain ⟨i, hi⟩ := List.mem_iff_getElem?.mp hv
      have := hvalues i
      simpa [hi] using this.symm
    obtain rfl := Option.some.inj ((encode_of_null hnull).symm.trans hencode)
    exact ⟨hnull, hzero⟩
  · rintro ⟨hnull, hzero⟩
    obtain ⟨ret, rfl⟩ := List.head?_eq_some_iff.mp hzero
    refine ⟨0 :: ret, 1, [], encode_of_null hnull, rfl, ?_⟩
    intro i
    cases hi : values[i]? with
    | none => rfl
    | some v =>
      obtain rfl := hnull v (List.mem_of_getElem? hi)
      rfl

/-- One `INT` column with the value 1, and a pointer to zeros: three of the bytes are cut off, and
what is left cannot be decoded. -/
theorem int_row_lost :
    encode (List.replicate 16 0) [some [1, 0, 0, 0]] [.int] = some (1 :: 1 :: List.replicate 14 0) ∧
    ¬ RoundTrips (List.replicate 16 0) [.int] [some [1, 0, 0, 0]] := by
  have hencode : encode (List.replicate 16 0) [some [1, 0, 0, 0]] [.int] =
      some (1 :: 1 :: List.replicate 14 0) := by
    decide +kernel
  refine ⟨hencode, ?_⟩
  rintro ⟨ptr, fuel, vs, hptr, hdecode, -⟩
  obtain rfl := Option.some.inj (hencode.symm.trans hptr)
  obtain ⟨hzero, -⟩ := decode_eq_some hdecode
  simp at hzero

end Row

end AlphaDb.Table
