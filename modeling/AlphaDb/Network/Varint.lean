import AlphaDb.Network.Coding

/-! What variable-length integers promise: a stream of them is read back, signed values are too, and
no shorter bytes stand for a value than those that are written. -/
namespace AlphaDb.Network

/-- Calls of `decode_uvarint`, each one where the last one stopped. -/
def decodeMany : ℕ → List UInt8 → Option (List (ℕ × ℕ) × List UInt8)
  | 0, data => some ([], data)
  | n + 1, data =>
    (decodeUvarint data).bind fun x =>
      (decodeMany n (data.drop x.2)).map fun y => (x :: y.1, y.2)

/-- The unsigned value that `encode_int` hands to `encode_uint`. -/
def zigzag (val : Int64) : UInt64 :=
  (if val < 0 then ~~~(val <<< 1) else val <<< 1).toUInt64

def encodeInt (val : Int64) : List UInt8 := encodeUint (zigzag val).toNat

/-- A number that 64 bits hold: nine bytes at most, or ten of which the last is 0 or 1. -/
structure IsVarint (bs : List UInt8) : Prop where
  ends : Numeral.Ends HasMore bs
  fits : bs.length ≤ 9 ∨ bs.length = 10 ∧ ∃ b ∈ bs.getLast?, b.toNat ≤ 1

variable {bs data rest : List UInt8} {v : ℕ}

/-- Seven bits a byte, and one byte for zero. -/
theorem encodeUint_length (v : ℕ) : (encodeUint v).length = max 1 ((Nat.size v + 6) / 7) := by
  have hpos := encodeUint_length_pos v
  have hiff : ∀ n, 0 < n → ((encodeUint v).length ≤ n ↔ Nat.size v ≤ 7 * n) := by
    intro n hn
    rw [encodeUint_length_le_iff hn, Nat.size_le]
  have hle := (hiff (max 1 ((Nat.size v + 6) / 7)) (by omega)).mpr (by omega)
  have hge := (hiff (encodeUint v).length hpos).mp le_rfl
  omega

theorem encodeUint_length_mono {v w : ℕ} (h : v ≤ w) :
    (encodeUint v).length ≤ (encodeUint w).length := by
  rw [encodeUint_length, encodeUint_length]
  have := Nat.size_le_size h
  omega

/-- A stream of values is read back, whatever follows it. -/
theorem decodeMany_encodeUint (vs : List UInt64) (rest : List UInt8) :
    decodeMany vs.length (vs.flatMap (fun v => encodeUint v.toNat) ++ rest) =
        some (vs.map fun v => (v.toNat, (encodeUint v.toNat).length), rest) ∧
      ∀ v ∈ vs, (encodeUint v.toNat).length = max 1 ((Nat.size v.toNat + 6) / 7) ∧
        (encodeUint v.toNat).length ≤ 10 ∧ ∀ i < (encodeUint v.toNat).length, 7 * i < 64 := by
  constructor
  · induction vs with
    | nil => rfl
    | cons v vs ih =>
      have hv := v.toNat_lt
      rw [List.flatMap_cons, List.append_assoc, List.length_cons, decodeMany,
        decodeUvarint_encodeUint hv, Option.bind_some, List.drop_left, ih]
      rfl
  · intro v _
    have hlen := encodeUint_length_le_ten v.toNat_lt
    refine ⟨encodeUint_length v.toNat, hlen, ?_⟩
    intro i hi
    omega

theorem zigzag_toNat (val : Int64) :
    ((zigzag val).toNat : ℤ) = if 0 ≤ val.toInt then 2 * val.toInt else -2 * val.toInt - 1 := by
  have hone : (1 : Int64).toBitVec.smod 64 = 1#64 := by decide
  have hx := val.toBitVec.isLt
  have hint : val.toInt = if 2 * val.toBitVec.toNat < 2 ^ 64 then (val.toBitVec.toNat : ℤ)
      else val.toBitVec.toNat - 2 ^ 64 := by
    have h := BitVec.toInt_eq_toNat_cond val.toBitVec
    push_cast at h
    exact h
  have hshift : (val <<< 1).toBitVec.toNat = 2 * val.toBitVec.toNat % 2 ^ 64 := by
    rw [Int64.toBitVec_shiftLeft, hone, BitVec.shiftLeft_eq', BitVec.toNat_shiftLeft,
      Nat.shiftLeft_eq, Nat.mul_comm]
    rfl
  rw [zigzag, ← UInt64.toNat_toBitVec, Int64.toBitVec_toUInt64]
  by_cases hneg : val < 0
  · have hlt := Int64.lt_iff_toInt_lt.mp hneg
    rw [Int64.toInt_zero] at hlt
    rw [if_pos hneg, if_neg (not_le.mpr hlt), Int64.toBitVec_not, BitVec.toNat_not, hshift]
    split at hint <;> omega
  · have hge := not_lt.mp (mt Int64.lt_iff_toInt_lt.mpr hneg)
    rw [Int64.toInt_zero] at hge
    rw [if_neg hneg, if_pos hge, hshift]
    split at hint <;> omega

/-- A signed value is read back, and a smaller magnitude never takes more bytes. -/
theorem decodeVarint_encodeInt (val : Int64) (rest : List UInt8) :
    decodeVarint (encodeInt val ++ rest) = some (val.toInt, (encodeInt val).length) ∧
      ((zigzag val).toNat : ℤ) =
        (if 0 ≤ val.toInt then 2 * val.toInt else -2 * val.toInt - 1) ∧
      ∀ val' : Int64, val.toInt.natAbs < val'.toInt.natAbs →
        (encodeInt val).length ≤ (encodeInt val').length := by
  have hwire := zigzag_toNat val
  refine ⟨?_, hwire, ?_⟩
  · rw [decodeVarint, encodeInt, decodeUvarint_encodeUint (zigzag val).toNat_lt, Option.map_some]
    simp only [Option.some.injEq, Prod.mk.injEq, and_true]
    split at hwire <;> split <;> omega
  · intro val' hlt
    have hwire' := zigzag_toNat val'
    apply encodeUint_length_mono
    split at hwire <;> split at hwire' <;> omega

theorem IsVarint.length_le (h : IsVarint bs) : bs.length ≤ 10 := by
  obtain hlen | ⟨hlen, -⟩ := h.fits <;> omega

theorem IsVarint.value_lt (h : IsVarint bs) : varintValue bs < 2 ^ 64 := by
  have hlt : ∀ as : List UInt8, varintValue as < (2 ^ 7) ^ as.length :=
    fun as => Numeral.value_lt (by decide) septet_lt
  obtain hlen | ⟨hlen, b, hb, hle⟩ := h.fits
  · calc varintValue bs
      _ < (2 ^ 7) ^ bs.length := hlt bs
      _ ≤ (2 ^ 7) ^ 9 := Nat.pow_le_pow_right (by decide) hlen
      _ < 2 ^ 64 := by norm_num
  · obtain ⟨as, rfl⟩ := List.getLast?_eq_some_iff.mp hb
    have hnine : as.length = 9 := by simpa using hlen
    have has := hlt as
    have hdigit : septet b ≤ 1 := (Nat.mod_le _ _).trans hle
    rw [hnine] at has
    rw [varintValue, Numeral.value_append, hnine, ← varintValue]
    omega

theorem IsVarint.decode (h : IsVarint bs) :
    decodeUvarint (bs ++ data) = some (varintValue bs, bs.length) :=
  decodeUvarint_ends h.ends h.length_le h.value_lt

/-- What is written for 64 bits is such a number. -/
theorem isVarint_encodeUint (hv : v < 2 ^ 64) : IsVarint (encodeUint v) := by
  obtain ⟨hends, hvalue, -⟩ := encodeUint_numeral v
  have hlen := encodeUint_length_le_ten hv
  refine ⟨hends, ?_⟩
  by_cases hten : (encodeUint v).length = 10
  · obtain ⟨b, hb, hlast⟩ := hends.getLast
    refine .inr ⟨hten, b, hb, ?_⟩
    obtain ⟨as, heq⟩ := List.getLast?_eq_some_iff.mp hb
    rw [heq, List.length_append, List.length_singleton] at hten
    have hnine : as.length = 9 := by omega
    rw [heq, varintValue, Numeral.value_append, hnine, septet] at hvalue
    unfold HasMore at hlast
    omega
  · exact .inl (by omega)

/-- Bytes are minimal if there is one of them or the last is not zero. -/
theorem IsVarint.minimal_iff (h : IsVarint bs) :
    Numeral.Minimal septet bs ↔ bs.length = 1 ∨ ∃ b ∈ bs.getLast?, b ≠ 0 := by
  have hpos := h.ends.length_pos
  obtain ⟨b, hb, hlast⟩ := h.ends.getLast
  have hzero : septet b ≠ 0 ↔ b ≠ 0 := by
    unfold septet
    unfold HasMore at hlast
    rw [Ne, Ne, ← UInt8.toNat_inj, UInt8.toNat_zero]
    omega
  have hlen : bs.length ≤ 1 ↔ bs.length = 1 := by omega
  rw [Numeral.Minimal, hlen, Option.mem_def.mp hb]
  simp only [Option.mem_some_iff, exists_eq_left', hzero]

/-- Bytes are what is written for their value, or else what is written is shorter. -/
theorem IsVarint.encodeUint_value (h : IsVarint bs) :
    (encodeUint (varintValue bs) = bs ↔ Numeral.Minimal septet bs) ∧
      (encodeUint (varintValue bs) ≠ bs → (encodeUint (varintValue bs)).length < bs.length) := by
  obtain ⟨hends, hvalue, hmin⟩ := encodeUint_numeral (varintValue bs)
  have hiff : encodeUint (varintValue bs) = bs ↔ Numeral.Minimal septet bs := by
    constructor
    · intro heq
      rwa [heq] at hmin
    · intro hm
      exact hends.unique (by decide) septet_lt septet_injective h.ends hmin hm hvalue
  refine ⟨hiff, ?_⟩
  intro hne
  obtain ⟨hlen, hlt⟩ := Numeral.value_lt_of_not_minimal (by decide) septet_lt (mt hiff.mpr hne)
  rw [← varintValue, ← pow_mul, ← encodeUint_length_le_iff (by omega)] at hlt
  omega

/-- A number is decoded from exactly its bytes, and these are encoded again unless they are padded.
What is encoded is the one shortest number of its value. -/
theorem varint_canonical :
    (∀ bs, IsVarint bs → ∃ v : UInt64,
      (∀ data, decodeUvarint (bs ++ data) = some (v.toNat, bs.length)) ∧
      (encodeUint v.toNat = bs ↔ bs.length = 1 ∨ ∃ b ∈ bs.getLast?, b ≠ 0) ∧
      (encodeUint v.toNat ≠ bs → (encodeUint v.toNat).length < bs.length)) ∧
    ∀ v : UInt64, IsVarint (encodeUint v.toNat) ∧
      decodeUvarint (encodeUint v.toNat) = some (v.toNat, (encodeUint v.toNat).length) ∧
      ∀ bs, IsVarint bs → decodeUvarint bs = some (v.toNat, bs.length) →
        bs ≠ encodeUint v.toNat → (encodeUint v.toNat).length < bs.length := by
  constructor
  · intro bs hbs
    have hv := UInt64.toNat_ofNat_of_lt' hbs.value_lt
    obtain ⟨hiff, hshorter⟩ := hbs.encodeUint_value
    refine ⟨UInt64.ofNat (varintValue bs), ?_⟩
    rw [hv]
    exact ⟨fun data => hbs.decode, hiff.trans hbs.minimal_iff, hshorter⟩
  · intro v
    have hself : decodeUvarint (encodeUint v.toNat ++ []) = _ :=
      decodeUvarint_encodeUint v.toNat_lt
    rw [List.append_nil] at hself
    refine ⟨isVarint_encodeUint v.toNat_lt, hself, ?_⟩
    intro bs hbs hdecode hne
    have hvalue : decodeUvarint (bs ++ []) = _ := hbs.decode
    rw [List.append_nil, hdecode] at hvalue
    obtain ⟨heq, -⟩ := Prod.mk.inj (Option.some.inj hvalue)
    rw [heq] at hne ⊢
    exact hbs.encodeUint_value.2 hne.symm

/-- A padded zero is read as zero and written again in one byte. -/
theorem varint_canonical_padded_zero :
    ∃ v : UInt64, (∀ data, decodeUvarint ([0x80, 0] ++ data) = some (v.toNat, 2)) ∧
      (encodeUint v.toNat).length < 2 := by
  have hpadded : IsVarint [0x80, 0] := ⟨.cons (by decide) (.last (by decide)), by decide⟩
  obtain ⟨v, hdecode, hiff, hshorter⟩ := varint_canonical.1 [0x80, 0] hpadded
  exact ⟨v, hdecode, hshorter (mt hiff.mp (by simp))⟩

end AlphaDb.Network
