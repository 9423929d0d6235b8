/-!
# Texts in the order of their bytes

Texts are ordered by their characters, and characters by their code points. UTF-8 keeps this order:
of two different characters the one with the lower code point has the lower byte where their
encodings first differ, and neither encoding continues the other. So the order of texts is that of
their encodings, byte by byte (`Text.compare_eq_lt_iff_bytes_lt`).

The first byte of an encoding tells how long it is, and longer encodings have higher first bytes and
higher code points. Encodings of one length are the digits of their code points in base 64, each
raised by a constant (`Text.encode_cases`).
-/

namespace SemanticVersioning
namespace Text

/-- The bytes of a text in UTF-8. -/
def bytes (text : String) : List UInt8 :=
  text.toByteArray.data.toList

theorem bytes_eq (text : String) : bytes text = text.toList.flatMap String.utf8EncodeChar := by
  rw [bytes, ← String.utf8Encode_toList, List.utf8Encode, List.toList_data_toByteArray]

/-! ## Single characters -/

theorem toNat_lt (c : Char) : c.toNat < 1114112 := by
  rcases c.valid with h | h
  · exact Nat.lt_trans h (by decide)
  · exact h.2

/-- The four lengths of encodings, and the bytes as numbers. -/
theorem encode_cases (c : Char) :
    (c.toNat < 128 ∧ (String.utf8EncodeChar c).map UInt8.toNat = [c.toNat]) ∨
    (128 ≤ c.toNat ∧ c.toNat < 2048 ∧ (String.utf8EncodeChar c).map UInt8.toNat =
      [c.toNat / 64 + 192, c.toNat % 64 + 128]) ∨
    (2048 ≤ c.toNat ∧ c.toNat < 65536 ∧ (String.utf8EncodeChar c).map UInt8.toNat =
      [c.toNat / 4096 + 224, c.toNat / 64 % 64 + 128, c.toNat % 64 + 128]) ∨
    (65536 ≤ c.toNat ∧ (String.utf8EncodeChar c).map UInt8.toNat =
      [c.toNat / 262144 + 240, c.toNat / 4096 % 64 + 128, c.toNat / 64 % 64 + 128,
        c.toNat % 64 + 128]) := by
  have hmax := toNat_lt c
  rw [String.utf8EncodeChar]
  simp only [Char.toNat_val]
  split
  · refine Or.inl ⟨by omega, ?_⟩
    simp only [List.map_cons, List.map_nil, UInt8.toNat_ofNat', List.cons.injEq, and_true]
    omega
  · split
    · refine Or.inr (Or.inl ⟨by omega, by omega, ?_⟩)
      simp only [List.map_cons, List.map_nil, UInt8.toNat_ofNat', List.cons.injEq, and_true]
      omega
    · split
      · refine Or.inr (Or.inr (Or.inl ⟨by omega, by omega, ?_⟩))
        simp only [List.map_cons, List.map_nil, UInt8.toNat_ofNat', List.cons.injEq, and_true]
        omega
      · refine Or.inr (Or.inr (Or.inr ⟨by omega, ?_⟩))
        simp only [List.map_cons, List.map_nil, UInt8.toNat_ofNat', List.cons.injEq, and_true]
        omega

theorem map_toNat_lt_map_toNat_iff (s t : List UInt8) :
    s.map UInt8.toNat < t.map UInt8.toNat ↔ s < t := by
  induction s generalizing t with
  | nil => cases t <;> simp
  | cons a s ih =>
    cases t with
    | nil => simp
    | cons b t =>
      rw [List.map_cons, List.map_cons, List.cons_lt_cons_iff, List.cons_lt_cons_iff, ih,
        UInt8.toNat_inj, UInt8.lt_iff_toNat_lt]

/-- Of two characters the lower one has the lower encoding, whatever follows. -/
theorem encode_append_lt {c d : Char} (h : c < d) (s t : List UInt8) :
    String.utf8EncodeChar c ++ s < String.utf8EncodeChar d ++ t := by
  have hlt : c.toNat < d.toNat := UInt32.lt_iff_toNat_lt.1 h
  have hc : c.toNat / 64 / 64 = c.toNat / 4096 ∧ c.toNat / 4096 / 64 = c.toNat / 262144 :=
    ⟨Nat.div_div_eq_div_mul _ 64 64, Nat.div_div_eq_div_mul _ 4096 64⟩
  have hd : d.toNat / 64 / 64 = d.toNat / 4096 ∧ d.toNat / 4096 / 64 = d.toNat / 262144 :=
    ⟨Nat.div_div_eq_div_mul _ 64 64, Nat.div_div_eq_div_mul _ 4096 64⟩
  rw [← map_toNat_lt_map_toNat_iff, List.map_append, List.map_append]
  rcases encode_cases c with ⟨_, hs⟩ | ⟨_, _, hs⟩ | ⟨_, _, hs⟩ | ⟨_, hs⟩ <;>
    rcases encode_cases d with ⟨_, ht⟩ | ⟨_, _, ht⟩ | ⟨_, _, ht⟩ | ⟨_, ht⟩ <;>
      rw [hs, ht] <;>
      simp only [List.cons_append, List.nil_append, List.cons_lt_cons_iff] <;>
      omega

/-! ## Texts -/

theorem flatMap_encode_lt {s t : List Char} (h : s < t) :
    s.flatMap String.utf8EncodeChar < t.flatMap String.utf8EncodeChar := by
  induction s generalizing t with
  | nil =>
    cases t with
    | nil => exact absurd h (List.lt_irrefl _)
    | cons d t =>
      obtain ⟨b, bs, hb⟩ := List.exists_cons_of_ne_nil (String.utf8EncodeChar_ne_nil (c := d))
      rw [List.flatMap_cons, hb]
      exact List.nil_lt_cons b _
  | cons c s ih =>
    cases t with
    | nil => exact absurd h (List.not_lt_nil _)
    | cons d t =>
      rw [List.flatMap_cons, List.flatMap_cons]
      rcases List.cons_lt_cons_iff.1 h with hcd | ⟨rfl, hst⟩
      · exact encode_append_lt hcd _ _
      · exact List.append_left_lt (ih hst)

theorem bytes_lt_bytes_of_lt {s t : String} (h : s < t) : bytes s < bytes t := by
  rw [bytes_eq, bytes_eq]
  exact flatMap_encode_lt h

/-- **Texts are ordered by their bytes.** -/
theorem compare_eq_lt_iff_bytes_lt {s t : String} :
    compare s t = .lt ↔ bytes s < bytes t := by
  have hlt : ∀ {u v : String}, compare u v = .lt ↔ u < v := compareOfLessAndEq_eq_lt
  constructor
  · intro h
    exact bytes_lt_bytes_of_lt (hlt.1 h)
  · intro h
    cases hst : compare s t with
    | lt => rfl
    | eq =>
      obtain rfl : s = t := Std.LawfulEqOrd.eq_of_compare hst
      exact absurd h (List.lt_irrefl _)
    | gt =>
      have hts : compare t s = .lt := Std.OrientedCmp.lt_of_gt hst
      exact absurd (bytes_lt_bytes_of_lt (hlt.1 hts)) (List.lt_asymm h)

end Text
end SemanticVersioning
