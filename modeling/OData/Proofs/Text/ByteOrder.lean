import Mathlib.Tactic.SplitIfs
import OData.Text.Utf8

/-!
# The order of texts and of their bytes

Texts are ordered by the code points of their characters, the first difference deciding. Their bytes
are in the same order: the first byte of a character tells how many bytes it takes, and a greater
character takes no fewer; where it takes as many, the bytes carry the bits of the code point from
the highest ones on.

## Main statements

* `encodeChar_append_lt` — the bytes of a greater character are greater, whatever follows
* `encode_lt_encode` — the bytes of a greater text are greater
-/

namespace OData.Text

variable {m n : Nat} {x y : List UInt8}

/-- The first byte decides, unless the two have the same. -/
theorem cons_lt_cons (hm : m < 256) (hn : n < 256) (hle : m ≤ n) (h : m = n → x < y) :
    UInt8.ofNat m :: x < UInt8.ofNat n :: y := by
  rw [List.cons_lt_cons_iff, UInt8.lt_iff_toNat_lt, ← UInt8.toNat_inj, toNat_ofNat_byte hm,
    toNat_ofNat_byte hn]
  exact (Nat.lt_or_eq_of_le hle).imp_right fun heq => ⟨heq, h heq⟩

theorem tailByte_cons_lt (hle : m % 64 ≤ n % 64) (h : m % 64 = n % 64 → x < y) :
    tailByte m :: x < tailByte n :: y :=
  cons_lt_cons (by omega) (by omega) (by omega) fun heq => h (by omega)

/-- **The bytes of a greater character are greater, whatever follows.** -/
theorem encodeChar_append_lt {c d : Char} (h : c.toNat < d.toNat) (x y : List UInt8) :
    encodeChar c ++ x < encodeChar d ++ y := by
  have hc := toNat_range c
  have hd := toNat_range d
  unfold encodeChar
  -- the greater character takes no fewer bytes; when it takes more, the first byte decides, and
  -- otherwise the first one that differs
  split_ifs <;> first
    | omega
    | exact cons_lt_cons (by omega) (by omega) (by omega) fun _ => by omega
    | exact cons_lt_cons (by omega) (by omega) (by omega) fun _ =>
        tailByte_cons_lt (by omega) fun _ => by omega
    | exact cons_lt_cons (by omega) (by omega) (by omega) fun _ =>
        tailByte_cons_lt (by omega) fun _ => tailByte_cons_lt (by omega) fun _ => by omega
    | exact cons_lt_cons (by omega) (by omega) (by omega) fun _ =>
        tailByte_cons_lt (by omega) fun _ => tailByte_cons_lt (by omega) fun _ =>
          tailByte_cons_lt (by omega) fun _ => by omega

/-- **The bytes of a greater text are greater.** -/
theorem encode_lt_encode {a b : List Char} (h : a < b) : encode a < encode b := by
  induction a generalizing b with
  | nil =>
    cases b with
    | nil => exact absurd h (List.not_lt_nil _)
    | cons d other =>
      obtain ⟨byte, bytes, hbytes, -⟩ := encodeChar_head d
      rw [encode_cons, hbytes]
      exact List.nil_lt_cons _ _
  | cons c rest ih =>
    cases b with
    | nil => exact absurd h (List.not_lt_nil _)
    | cons d other =>
      rw [encode_cons, encode_cons]
      rcases List.cons_lt_cons_iff.1 h with hlt | ⟨rfl, hrest⟩
      · exact encodeChar_append_lt hlt _ _
      · exact List.append_left_lt (ih hrest)

end OData.Text
