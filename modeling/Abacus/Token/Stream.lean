import Abacus.Token

namespace Abacus

/-!
# Token streams

The tokens of a text, followed by the end of the text for ever.

* `TokenStream.current` — the token at the front.
* `TokenStream.tail` — the stream without it; at the end of the text nothing changes.
* `TokenStream.get` — the token at any index of the endless stream.
-/

/-- The tokens of a text up to its end, and where the text ends. -/
structure TokenStream where
  body : List Token
  finish : Position
  deriving DecidableEq

namespace TokenStream

/-- The token that stands for the end of the text. -/
def eof (s : TokenStream) : Token := ⟨.eof, "", s.finish⟩

/-- The tokens up to the first end of the text, which is included. -/
def toList (s : TokenStream) : List Token := s.body ++ [s.eof]

/-- The token at the front. -/
def current (s : TokenStream) : Token := s.body.headD s.eof

/-- The stream without its front token. -/
def tail (s : TokenStream) : TokenStream := { s with body := s.body.tail }

/-- The stream with `t` in front. -/
def cons (t : Token) (s : TokenStream) : TokenStream := { s with body := t :: s.body }

/-- The token at index `n` of the endless stream. -/
def get (s : TokenStream) (n : Nat) : Token := s.body[n]?.getD s.eof

@[simp] theorem toList_cons (t : Token) (s : TokenStream) : (cons t s).toList = t :: s.toList :=
  rfl

@[simp] theorem current_cons (t : Token) (s : TokenStream) : (cons t s).current = t := rfl

@[simp] theorem tail_cons (t : Token) (s : TokenStream) : (cons t s).tail = s := rfl

@[simp] theorem get_zero (s : TokenStream) : s.get 0 = s.current := by
  cases h : s.body <;> simp [get, current, h]

@[simp] theorem get_succ (s : TokenStream) (n : Nat) : s.get (n + 1) = s.tail.get n := by
  cases h : s.body <;> simp [get, tail, eof, h]

/-- The endless stream shows the tokens of the text in order, and then the last of them for ever. -/
theorem getElem?_toList (s : TokenStream) (n : Nat) :
    s.toList[min n s.body.length]? = some (s.get n) := by
  show (s.body ++ [s.eof])[_]? = some (s.body[n]?.getD s.eof)
  by_cases hn : n < s.body.length
  · rw [Nat.min_eq_left (Nat.le_of_lt hn), List.getElem?_append_left hn,
      List.getElem?_eq_getElem hn]
    rfl
  · have hle : s.body.length ≤ n := Nat.not_lt.1 hn
    rw [Nat.min_eq_right hle, List.getElem?_concat_length, List.getElem?_eq_none hle]
    rfl

theorem length_tail (s : TokenStream) : s.tail.body.length = s.body.length - 1 :=
  List.length_tail

theorem current_of_body_eq_nil {s : TokenStream} (h : s.body = []) : s.current = s.eof := by
  simp [current, h]

/-- Only the end of the text can stand at the front of an empty stream. -/
theorem body_ne_nil_of_kind_ne {s : TokenStream} (h : s.current.kind ≠ .eof) : s.body ≠ [] :=
  fun hb => h (by rw [current_of_body_eq_nil hb]; rfl)

end TokenStream

end Abacus
