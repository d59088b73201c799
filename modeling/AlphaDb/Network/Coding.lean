import AlphaDb.Lib.Numeral

/-! Variable-length integers (`network/coding`): seven bits a byte, the lowest first, and the top
bit set on every byte but the last. -/
namespace AlphaDb.Network

/-- The bytes that `encode_uint` stores. -/
def encodeUint (val : ℕ) : List UInt8 :=
  if val / 2 ^ 7 = 0 then [UInt8.ofNat (val % 2 ^ 7)]
  else UInt8.ofNat (val % 2 ^ 7 + 2 ^ 7) :: encodeUint (val / 2 ^ 7)
termination_by val
decreasing_by omega

/-- The loop of `decode_uvarint`: the value and the number of bytes. It returns nothing where the
source is undefined, that is where it reads past the end of `data` or shifts by 64 bits. -/
def decodeLoop (val shift : ℕ) : List UInt8 → Option (ℕ × ℕ)
  | [] => none
  | b :: data =>
    if 64 ≤ shift then none
    else
      let val := val ||| ((b.toNat % 2 ^ 7) <<< shift) % 2 ^ 64
      if b.toNat < 2 ^ 7 then some (val, 1)
      else (decodeLoop val (shift + 7) data).map fun x => (x.1, x.2 + 1)

def decodeUvarint (data : List UInt8) : Option (ℕ × ℕ) := decodeLoop 0 0 data

/-- `decode_varint`: the lowest bit is the sign. -/
def decodeVarint (data : List UInt8) : Option (ℤ × ℕ) :=
  (decodeUvarint data).map fun x =>
    (if x.1 % 2 = 1 then -((x.1 / 2 : ℕ) : ℤ) - 1 else (x.1 / 2 : ℕ), x.2)

variable {val shift v bytes n : ℕ} {data bs : List UInt8}

/-- The seven bits of a byte that count. -/
def septet (b : UInt8) : ℕ := b.toNat % 2 ^ 7

/-- The top bit says that more bytes follow. -/
def HasMore (b : UInt8) : Prop := 2 ^ 7 ≤ b.toNat

instance (b : UInt8) : Decidable (HasMore b) := inferInstanceAs (Decidable (_ ≤ _))

def varintValue (bs : List UInt8) : ℕ := Numeral.value (2 ^ 7) septet bs

theorem septet_lt (b : UInt8) : septet b < 2 ^ 7 := Nat.mod_lt _ (by decide)

theorem septet_injective (b c : UInt8) (hs : septet b = septet c) (hm : HasMore b ↔ HasMore c) :
    b = c := by
  have hb := b.toNat_lt
  have hc := c.toNat_lt
  unfold septet at hs
  unfold HasMore at hm
  apply UInt8.toNat_inj.mp
  omega

theorem toNat_ofNat_septet (val : ℕ) : (UInt8.ofNat (val % 2 ^ 7)).toNat = val % 2 ^ 7 := by
  rw [UInt8.toNat_ofNat']
  omega

theorem toNat_ofNat_marked (val : ℕ) :
    (UInt8.ofNat (val % 2 ^ 7 + 2 ^ 7)).toNat = val % 2 ^ 7 + 2 ^ 7 := by
  rw [UInt8.toNat_ofNat']
  omega

/-- An encoding is the minimal numeral of its value. -/
theorem encodeUint_numeral (val : ℕ) : Numeral.Ends HasMore (encodeUint val) ∧
    varintValue (encodeUint val) = val ∧ Numeral.Minimal septet (encodeUint val) := by
  induction val using Nat.strong_induction_on with
  | _ val ih =>
    rw [encodeUint]
    by_cases hsmall : val / 2 ^ 7 = 0
    · have hbyte := toNat_ofNat_septet val
      rw [if_pos hsmall]
      refine ⟨.last ?_, ?_, .inl (by simp)⟩
      · unfold HasMore
        omega
      · rw [varintValue, Numeral.value_cons, Numeral.value_nil, septet, hbyte]
        omega
    · have hbyte := toNat_ofNat_marked val
      obtain ⟨hends, hvalue, hmin⟩ := ih (val / 2 ^ 7) (by omega)
      rw [if_neg hsmall]
      refine ⟨.cons ?_ hends, ?_, ?_⟩
      · unfold HasMore
        omega
      · unfold varintValue at hvalue ⊢
        rw [Numeral.value_cons, hvalue, septet, hbyte]
        omega
      · exact hmin.cons (by rwa [← varintValue, hvalue])

theorem encodeUint_length_pos (val : ℕ) : 0 < (encodeUint val).length :=
  (encodeUint_numeral val).1.length_pos

theorem encodeUint_length_le_iff (hn : 0 < n) :
    (encodeUint val).length ≤ n ↔ val < 2 ^ (7 * n) := by
  obtain ⟨-, hvalue, hmin⟩ := encodeUint_numeral val
  have h := hmin.length_le_iff (by decide) septet_lt hn
  rwa [← varintValue, hvalue, ← pow_mul] at h

/-- A value of 64 bits takes at most ten bytes. -/
theorem encodeUint_length_le_ten (h : val < 2 ^ 64) : (encodeUint val).length ≤ 10 :=
  (encodeUint_length_le_iff (by decide)).mpr (h.trans (by norm_num))

/-- The decoder returns something exactly if a number of at most ten bytes stands at the start. -/
theorem decodeLoop_defined :
    (∃ v, decodeLoop val shift data = some (v, bytes)) ↔
      ∃ bs, Numeral.Ends HasMore bs ∧ bs <+: data ∧ bs.length = bytes ∧
        shift + 7 * (bytes - 1) < 64 := by
  induction data generalizing val shift bytes with
  | nil =>
    refine iff_of_false (by simp [decodeLoop]) ?_
    rintro ⟨bs, hbs, hpre, -⟩
    obtain rfl := List.prefix_nil.mp hpre
    cases hbs
  | cons b data ih =>
    rw [decodeLoop]
    by_cases hshift : 64 ≤ shift
    · rw [if_pos hshift]
      refine iff_of_false (by simp) ?_
      rintro ⟨bs, -, -, -, hlt⟩
      omega
    rw [if_neg hshift]
    by_cases hmore : HasMore b
    · simp only [if_neg (show ¬ b.toNat < 2 ^ 7 by unfold HasMore at hmore; omega)]
      constructor
      · rintro ⟨v, h⟩
        obtain ⟨⟨v', k⟩, hk, heq⟩ := Option.map_eq_some_iff.mp h
        obtain ⟨-, rfl⟩ := Prod.mk.inj heq
        obtain ⟨bs, hbs, hpre, hlen, hlt⟩ := ih.mp ⟨v', hk⟩
        have hpos := hbs.length_pos
        refine ⟨b :: bs, .cons hmore hbs, List.cons_prefix_cons.mpr ⟨rfl, hpre⟩, by simp [hlen], ?_⟩
        dsimp only
        omega
      · rintro ⟨bs, hbs, hpre, rfl, hlt⟩
        cases hbs with
        | last hlast =>
          obtain ⟨rfl, -⟩ := List.cons_prefix_cons.mp hpre
          exact absurd hmore hlast
        | @cons c bs _ hbs =>
          obtain ⟨rfl, hrest⟩ := List.cons_prefix_cons.mp hpre
          have hpos := hbs.length_pos
          have hbound : shift + 7 + 7 * (bs.length - 1) < 64 := by
            rw [List.length_cons] at hlt
            omega
          obtain ⟨v, hv⟩ := ih.mpr ⟨bs, hbs, hrest, rfl, hbound⟩
          exact ⟨v, by rw [hv]; rfl⟩
    · simp only [if_pos (show b.toNat < 2 ^ 7 by unfold HasMore at hmore; omega)]
      constructor
      · rintro ⟨v, h⟩
        obtain ⟨-, rfl⟩ := Prod.mk.inj (Option.some.inj h)
        exact ⟨[b], .last hmore, by simp, rfl, by omega⟩
      · rintro ⟨bs, hbs, hpre, rfl, -⟩
        cases hbs with
        | last _ => exact ⟨_, rfl⟩
        | cons hc _ =>
          obtain ⟨rfl, -⟩ := List.cons_prefix_cons.mp hpre
          exact absurd hc hmore

theorem decodeUvarint_bytes (h : decodeUvarint data = some (v, bytes)) :
    0 < bytes ∧ bytes ≤ 10 := by
  obtain ⟨bs, hbs, -, rfl, hlt⟩ := decodeLoop_defined.mp ⟨v, h⟩
  exact ⟨hbs.length_pos, by omega⟩

/-- The decoder continues a value with the next seven bits. -/
theorem or_shiftLeft {c : ℕ} (hval : val < 2 ^ shift) (hlt : c * 2 ^ shift < 2 ^ 64) :
    val ||| (c <<< shift) % 2 ^ 64 = val + c * 2 ^ shift := by
  rw [Nat.shiftLeft_eq, Nat.mod_eq_of_lt hlt, ← Nat.shiftLeft_eq, Nat.or_comm,
    ← Nat.shiftLeft_add_eq_or_of_lt hval, Nat.add_comm]

/-- A number that fits is decoded as its value, whatever follows it. -/
theorem decodeLoop_ends (hbs : Numeral.Ends HasMore bs) (hval : val < 2 ^ shift)
    (hshift : shift + 7 * (bs.length - 1) < 64) (hv : varintValue bs * 2 ^ shift < 2 ^ 64) :
    decodeLoop val shift (bs ++ data) = some (val + varintValue bs * 2 ^ shift, bs.length) := by
  induction hbs generalizing val shift with
  | @last b hb =>
    have hb : b.toNat < 2 ^ 7 := not_le.mp hb
    have hvalue : varintValue [b] = b.toNat % 2 ^ 7 := by
      rw [varintValue, Numeral.value_cons, Numeral.value_nil, septet, mul_zero, add_zero]
    rw [hvalue] at hv ⊢
    rw [List.singleton_append, decodeLoop, if_neg (by omega)]
    simp only [if_pos hb]
    rw [or_shiftLeft hval hv]
    rfl
  | @cons b bs hb hbs ih =>
    have hpos := hbs.length_pos
    rw [List.length_cons] at hshift
    have hvalue : varintValue (b :: bs) = b.toNat % 2 ^ 7 + 2 ^ 7 * varintValue bs :=
      Numeral.value_cons
    have hsplit : varintValue (b :: bs) * 2 ^ shift =
        b.toNat % 2 ^ 7 * 2 ^ shift + varintValue bs * 2 ^ (shift + 7) := by
      rw [hvalue]
      ring
    rw [hsplit] at hv ⊢
    have hnext : val + b.toNat % 2 ^ 7 * 2 ^ shift < 2 ^ (shift + 7) := by
      have hle : b.toNat % 2 ^ 7 + 1 ≤ 2 ^ 7 := Nat.mod_lt b.toNat (by decide)
      calc val + b.toNat % 2 ^ 7 * 2 ^ shift
        _ < 2 ^ shift + b.toNat % 2 ^ 7 * 2 ^ shift := Nat.add_lt_add_right hval _
        _ = (b.toNat % 2 ^ 7 + 1) * 2 ^ shift := by ring
        _ ≤ 2 ^ 7 * 2 ^ shift := Nat.mul_le_mul_right _ hle
        _ = 2 ^ (shift + 7) := by ring
    rw [List.cons_append, decodeLoop, if_neg (by omega)]
    simp only [if_neg (not_lt.mpr hb)]
    rw [or_shiftLeft hval (by omega), ih hnext (by omega) (by omega), Option.map_some]
    simp only [Option.some.injEq, Prod.mk.injEq, List.length_cons, and_true]
    omega

theorem decodeUvarint_ends (hbs : Numeral.Ends HasMore bs) (hlen : bs.length ≤ 10)
    (hv : varintValue bs < 2 ^ 64) :
    decodeUvarint (bs ++ data) = some (varintValue bs, bs.length) := by
  have h : decodeLoop 0 0 (bs ++ data) = some (0 + varintValue bs * 2 ^ 0, bs.length) :=
    decodeLoop_ends hbs (by decide) (by omega) (by simpa using hv)
  simpa [decodeUvarint] using h

/-- What was encoded is decoded, whatever follows it. -/
theorem decodeUvarint_encodeUint (hv : v < 2 ^ 64) :
    decodeUvarint (encodeUint v ++ data) = some (v, (encodeUint v).length) := by
  obtain ⟨hends, hvalue, -⟩ := encodeUint_numeral v
  have h : decodeUvarint (encodeUint v ++ data) = _ :=
    decodeUvarint_ends hends (encodeUint_length_le_ten hv) (by rwa [hvalue])
  rwa [hvalue] at h

end AlphaDb.Network
