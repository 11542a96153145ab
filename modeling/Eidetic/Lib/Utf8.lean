import Eidetic.Lib.Lines
import Mathlib.Data.Char

/-!
# Decoding UTF-8 as a stream

The decoder of the Encoding Standard, byte by byte: what it needs and accepts
next, the replacement character for what is no UTF-8, and the byte order mark
that it drops at the start. ASCII is read as it is (`decodeByte_ascii`).

For an encoded text the decoder gives the text, from any state in which no
character has begun (`decode_utf8`): a character of one to four bytes is
followed byte by byte, the first one setting what is needed and which second
bytes are accepted, so that neither overlong forms nor surrogates come into it.
The decoder works on pieces, as its state is what it has between two bytes.
-/

namespace Eidetic.Lib

structure Utf8State where
  codePoint : Nat := 0
  /-- Bytes of the character that are still to come. -/
  needed : Nat := 0
  lower : Nat := 0x80
  upper : Nat := 0xbf
  /-- Something has been read, so that a byte order mark would be text. -/
  started : Bool := false

/-- A character is read. -/
def Utf8State.put (s : Utf8State) (c : Char) : Utf8State × List Char :=
  ({ started := true }, if !s.started && c == Char.ofNat 0xfeff then [] else [c])

/-- What is no UTF-8. -/
def replacement : Char := Char.ofNat 0xfffd

/-- The first byte of a character. -/
def Utf8State.first (s : Utf8State) (b : Nat) : Utf8State × List Char :=
  if b ≤ 0x7f then s.put (Char.ofNat b)
  else if 0xc2 ≤ b ∧ b ≤ 0xdf then
    ({ s with needed := 1, codePoint := b % 0x20, lower := 0x80, upper := 0xbf }, [])
  else if 0xe0 ≤ b ∧ b ≤ 0xef then
    ({ s with
        needed := 2, codePoint := b % 0x10
        lower := if b = 0xe0 then 0xa0 else 0x80
        upper := if b = 0xed then 0x9f else 0xbf }, [])
  else if 0xf0 ≤ b ∧ b ≤ 0xf4 then
    ({ s with
        needed := 3, codePoint := b % 0x8
        lower := if b = 0xf0 then 0x90 else 0x80
        upper := if b = 0xf4 then 0x8f else 0xbf }, [])
  else s.put replacement

/-- One byte. -/
def decodeByte (s : Utf8State) (byte : UInt8) : Utf8State × List Char :=
  let b := byte.toNat
  if s.needed = 0 then s.first b
  else if b < s.lower ∨ s.upper < b then
    -- the byte begins the next character
    let (s, error) := s.put replacement
    let (s, out) := s.first b
    (s, error ++ out)
  else
    let codePoint := s.codePoint * 0x40 + b % 0x40
    if s.needed = 1 then s.put (Char.ofNat codePoint)
    else ({ s with needed := s.needed - 1, codePoint := codePoint, lower := 0x80, upper := 0xbf }, [])

/-- All of an input, whose byte order mark is text. -/
def decodeAll (bytes : List UInt8) : List Char :=
  let (s, out) := decode decodeByte { started := true } bytes
  -- a character that the end cuts off is one replacement
  if s.needed = 0 then out else out ++ [replacement]

/-- The bytes of a text. -/
def utf8 (t : List Char) : List UInt8 := t.flatMap String.utf8EncodeChar

def isAscii (c : Char) : Bool := c.toNat ≤ 0x7f

theorem Utf8State.put_ascii (s : Utf8State) {c : Char} (h : isAscii c = true) :
    s.put c = ({ started := true }, [c]) := by
  have hmark : (c == Char.ofNat 0xfeff) = false := by
    rw [beq_eq_false_iff_ne]
    intro heq
    rw [heq] at h
    exact absurd h (by decide)
  rw [Utf8State.put, hmark, Bool.and_false, if_neg (by simp)]

theorem decodeByte_ascii {s : Utf8State} (hneeded : s.needed = 0) {c : Char}
    (h : isAscii c = true) :
    decodeByte s (UInt8.ofNat c.toNat) = ({ started := true }, [c]) := by
  have hle : c.toNat ≤ 0x7f := by simpa [isAscii] using h
  have hbyte : (UInt8.ofNat c.toNat).toNat = c.toNat := by
    rw [UInt8.toNat_ofNat']
    omega
  unfold decodeByte
  dsimp only
  rw [if_pos hneeded, Utf8State.first, hbyte, if_pos hle, Char.ofNat_toNat, s.put_ascii h]

theorem utf8EncodeChar_ascii {c : Char} (h : isAscii c = true) :
    String.utf8EncodeChar c = [UInt8.ofNat c.toNat] := by
  have hle : c.val.toNat ≤ 0x7f := of_decide_eq_true h
  rw [String.utf8EncodeChar]
  exact if_pos hle

/-- ASCII is read as it is. -/
theorem decode_utf8_ascii {t : List Char} (h : ∀ c ∈ t, isAscii c = true) {s : Utf8State}
    (hneeded : s.needed = 0) : (decode decodeByte s (utf8 t)).2 = t := by
  induction t generalizing s with
  | nil => rfl
  | cons c t ih =>
    have hc := h c (List.mem_cons_self ..)
    rw [utf8, List.flatMap_cons, utf8EncodeChar_ascii hc, List.singleton_append, decode,
      decodeByte_ascii hneeded hc]
    dsimp only
    rw [List.singleton_append, List.cons.injEq]
    exact ⟨rfl, ih (fun x hx => h x (List.mem_cons_of_mem _ hx)) rfl⟩

/-! ## Any text -/

theorem Utf8State.put_started {s : Utf8State} (h : s.started = true) (c : Char) :
    s.put c = ({ started := true }, [c]) := by
  rw [Utf8State.put, h]
  rfl

/-- The first byte of a character. -/
theorem decodeByte_first {s : Utf8State} {b : Nat} (hneeded : s.needed = 0) (hbyte : b < 0x100) :
    decodeByte s (UInt8.ofNat b) = s.first b := by
  have htoNat : (UInt8.ofNat b).toNat = b := by
    rw [UInt8.toNat_ofNat']
    omega
  unfold decodeByte
  dsimp only
  rw [htoNat, if_pos hneeded]

/-- A byte that makes no character yet. -/
theorem decode_of_decodeByte {s s' : Utf8State} {b : UInt8} (h : decodeByte s b = (s', []))
    (rest : List UInt8) : decode decodeByte s (b :: rest) = decode decodeByte s' rest := by
  rw [decode, h]
  rfl

/-- A byte that continues a character of which more is to come. -/
theorem decode_more {s : Utf8State} {x : Nat} (rest : List UInt8) (hneeded : 2 ≤ s.needed)
    (hlower : s.lower ≤ x % 0x40 + 0x80) (hupper : x % 0x40 + 0x80 ≤ s.upper) :
    decode decodeByte s (UInt8.ofNat (x % 0x40 + 0x80) :: rest) =
      decode decodeByte { s with
        needed := s.needed - 1, codePoint := s.codePoint * 0x40 + x % 0x40
        lower := 0x80, upper := 0xbf } rest := by
  refine decode_of_decodeByte ?_ rest
  have htoNat : (UInt8.ofNat (x % 0x40 + 0x80)).toNat = x % 0x40 + 0x80 := by
    rw [UInt8.toNat_ofNat']
    omega
  unfold decodeByte
  dsimp only
  rw [htoNat, if_neg (by omega), if_neg (by omega), if_neg (by omega),
    show (x % 0x40 + 0x80) % 0x40 = x % 0x40 by omega]

/-- The last byte of a character. -/
theorem decode_last {s : Utf8State} {x : Nat} (hneeded : s.needed = 1) (hstarted : s.started = true)
    (hlower : s.lower = 0x80) (hupper : s.upper = 0xbf) :
    decode decodeByte s [UInt8.ofNat (x % 0x40 + 0x80)] =
      ({ started := true }, [Char.ofNat (s.codePoint * 0x40 + x % 0x40)]) := by
  have htoNat : (UInt8.ofNat (x % 0x40 + 0x80)).toNat = x % 0x40 + 0x80 := by
    rw [UInt8.toNat_ofNat']
    omega
  have hbyte : decodeByte s (UInt8.ofNat (x % 0x40 + 0x80)) =
      ({ started := true }, [Char.ofNat (s.codePoint * 0x40 + x % 0x40)]) := by
    unfold decodeByte
    dsimp only
    rw [htoNat, if_neg (by omega), if_neg (by omega), if_pos hneeded, s.put_started hstarted,
      show (x % 0x40 + 0x80) % 0x40 = x % 0x40 by omega]
  rw [decode, hbyte]
  rfl

variable {s : Utf8State} {v : Nat}

theorem decode_two (hneeded : s.needed = 0) (hstarted : s.started = true) (hlower : 0x7f < v)
    (hupper : v ≤ 0x7ff) :
    decode decodeByte s [UInt8.ofNat (v / 64 % 0x20 + 0xc0), UInt8.ofNat (v % 0x40 + 0x80)] =
      ({ started := true }, [Char.ofNat v]) := by
  have hfirst : decodeByte s (UInt8.ofNat (v / 64 % 0x20 + 0xc0)) =
      ({ s with needed := 1, codePoint := v / 64, lower := 0x80, upper := 0xbf }, []) := by
    rw [decodeByte_first hneeded (by omega), Utf8State.first, if_neg (by omega),
      if_pos (by omega), show (v / 64 % 0x20 + 0xc0) % 0x20 = v / 64 by omega]
  rw [decode_of_decodeByte hfirst, decode_last rfl (by exact hstarted) rfl rfl]
  dsimp only
  rw [show v / 64 * 0x40 + v % 0x40 = v by omega]

/-- A character that needs three bytes, and no surrogate. -/
theorem decode_three (hneeded : s.needed = 0) (hstarted : s.started = true) (hlower : 0x7ff < v)
    (hupper : v ≤ 0xffff) (hvalid : v < 0xd800 ∨ 0xdfff < v) :
    decode decodeByte s [UInt8.ofNat (v / 4096 % 0x10 + 0xe0),
        UInt8.ofNat (v / 64 % 0x40 + 0x80), UInt8.ofNat (v % 0x40 + 0x80)] =
      ({ started := true }, [Char.ofNat v]) := by
  have hfirst : decodeByte s (UInt8.ofNat (v / 4096 % 0x10 + 0xe0)) =
      ({ s with
          needed := 2, codePoint := v / 4096
          lower := if v / 4096 % 0x10 + 0xe0 = 0xe0 then 0xa0 else 0x80
          upper := if v / 4096 % 0x10 + 0xe0 = 0xed then 0x9f else 0xbf }, []) := by
    rw [decodeByte_first hneeded (by omega), Utf8State.first, if_neg (by omega),
      if_neg (by omega), if_pos (by omega),
      show (v / 4096 % 0x10 + 0xe0) % 0x10 = v / 4096 by omega]
  rw [decode_of_decodeByte hfirst, decode_more, decode_last rfl (by exact hstarted) rfl rfl]
  · dsimp only
    rw [show (v / 4096 * 0x40 + v / 64 % 0x40) * 0x40 + v % 0x40 = v by omega]
  · exact Nat.le_refl 2
  · dsimp only
    split <;> omega
  · dsimp only
    split <;> omega

theorem decode_four (hneeded : s.needed = 0) (hstarted : s.started = true) (hlower : 0xffff < v)
    (hupper : v < 0x110000) :
    decode decodeByte s [UInt8.ofNat (v / 262144 % 0x08 + 0xf0),
        UInt8.ofNat (v / 4096 % 0x40 + 0x80), UInt8.ofNat (v / 64 % 0x40 + 0x80),
        UInt8.ofNat (v % 0x40 + 0x80)] =
      ({ started := true }, [Char.ofNat v]) := by
  have hfirst : decodeByte s (UInt8.ofNat (v / 262144 % 0x08 + 0xf0)) =
      ({ s with
          needed := 3, codePoint := v / 262144
          lower := if v / 262144 % 0x08 + 0xf0 = 0xf0 then 0x90 else 0x80
          upper := if v / 262144 % 0x08 + 0xf0 = 0xf4 then 0x8f else 0xbf }, []) := by
    rw [decodeByte_first hneeded (by omega), Utf8State.first, if_neg (by omega),
      if_neg (by omega), if_neg (by omega), if_pos (by omega),
      show (v / 262144 % 0x08 + 0xf0) % 0x8 = v / 262144 by omega]
  rw [decode_of_decodeByte hfirst, decode_more, decode_more,
    decode_last rfl (by exact hstarted) rfl rfl]
  · dsimp only
    rw [show ((v / 262144 * 0x40 + v / 4096 % 0x40) * 0x40 + v / 64 % 0x40) * 0x40 +
      v % 0x40 = v by omega]
  · exact Nat.le_refl 2
  · dsimp only
    omega
  · dsimp only
    omega
  · exact Nat.le_succ 2
  · dsimp only
    split <;> omega
  · dsimp only
    split <;> omega

theorem decode_utf8EncodeChar (hneeded : s.needed = 0) (hstarted : s.started = true) (c : Char) :
    decode decodeByte s (String.utf8EncodeChar c) = ({ started := true }, [c]) := by
  have hc : Char.ofNat c.val.toNat = c := Char.ofNat_toNat c
  have hvalid : c.val.toNat < 0xd800 ∨ 0xdfff < c.val.toNat ∧ c.val.toNat < 0x110000 := c.valid
  unfold String.utf8EncodeChar
  generalize c.val.toNat = v at hc hvalid ⊢
  subst hc
  dsimp only
  split
  next hle =>
    have hbyte : decodeByte s (UInt8.ofNat v) = ({ started := true }, [Char.ofNat v]) := by
      rw [decodeByte_first hneeded (by omega), Utf8State.first, if_pos hle,
        s.put_started hstarted]
    rw [decode, hbyte]
    rfl
  next =>
    split
    next => exact decode_two hneeded hstarted (by omega) (by omega)
    next =>
      split
      next => exact decode_three hneeded hstarted (by omega) (by omega) (by omega)
      next => exact decode_four hneeded hstarted (by omega) (by omega)

/-- A text is read as it is, up to a state in which no character has begun. -/
theorem decode_utf8 (hneeded : s.needed = 0) (hstarted : s.started = true) (t : List Char) :
    (decode decodeByte s (utf8 t)).2 = t ∧ (decode decodeByte s (utf8 t)).1.needed = 0 := by
  induction t generalizing s with
  | nil => exact ⟨rfl, hneeded⟩
  | cons c t ih =>
    obtain ⟨hout, hneeded'⟩ := ih (s := { started := true }) rfl rfl
    rw [utf8, List.flatMap_cons, decode_append, decode_utf8EncodeChar hneeded hstarted]
    exact ⟨congrArg (c :: ·) hout, hneeded'⟩

theorem decodeAll_utf8 (t : List Char) : decodeAll (utf8 t) = t := by
  obtain ⟨hout, hneeded⟩ := decode_utf8 (s := { started := true }) rfl rfl t
  unfold decodeAll
  dsimp only
  rw [if_pos hneeded, hout]

end Eidetic.Lib
