namespace Abacus

/-!
# Aligned text

* `alignLeft`, `alignRight`, `centre` — a text made at least so many characters wide.
* `cut` — the beginning of a text.
-/

namespace Text

/-- A text of `n` equal characters. -/
def fill (c : Char) (n : Nat) : String := String.ofList (List.replicate n c)

/-- Spaces after the text up to a width. -/
def alignLeft (width : Nat) (text : String) : String := text ++ fill ' ' (width - text.length)

/-- Characters `c` before the text up to a width. -/
def alignRight (c : Char) (width : Nat) (text : String) : String :=
  fill c (width - text.length) ++ text

/-- Spaces on both sides up to a width; an odd one stands after the text. -/
def centre (width : Nat) (text : String) : String :=
  let room := width - text.length
  fill ' ' (room / 2) ++ text ++ fill ' ' (room - room / 2)

/-- At most the first `width` characters. -/
def cut (width : Nat) (text : String) : String := String.ofList (text.toList.take width)

end Text

end Abacus
