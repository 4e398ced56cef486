namespace Abacus

/-!
# Positions in a source text

Lines and columns count from one, and a column counts characters.

* `Position.next` — the place after one character.
* `Position.after` — the place after a stretch of text.
-/

/-- A place in a source text. -/
structure Position where
  line : Nat
  column : Nat
  deriving DecidableEq

namespace Position

/-- Where every text begins. -/
def start : Position := ⟨1, 1⟩

/-- The place after `c`: a newline opens the next line, any other character takes one
    column. -/
def next (p : Position) (c : Char) : Position :=
  if c = '\n' then ⟨p.line + 1, 1⟩ else ⟨p.line, p.column + 1⟩

/-- The place after all of `text`. -/
def after (p : Position) (text : List Char) : Position := text.foldl next p

@[simp] theorem next_newline (p : Position) : p.next '\n' = ⟨p.line + 1, 1⟩ := rfl

theorem next_of_ne (p : Position) {c : Char} (h : c ≠ '\n') :
    p.next c = ⟨p.line, p.column + 1⟩ :=
  if_neg h

@[simp] theorem after_nil (p : Position) : p.after [] = p := rfl

@[simp] theorem after_cons (p : Position) (c : Char) (text : List Char) :
    p.after (c :: text) = (p.next c).after text := rfl

@[simp] theorem after_append (p : Position) (text more : List Char) :
    p.after (text ++ more) = (p.after text).after more :=
  List.foldl_append

end Position

end Abacus
