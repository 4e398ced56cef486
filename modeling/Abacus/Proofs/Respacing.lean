import Abacus.Proofs.TokenEnds
import Abacus.Proofs.TokenLog

namespace Abacus

/-!
# Tokens written again

The tokens of a text, written behind each other with a space between two of them, are scanned to
tokens that are spelled alike, and so they are compiled alike.

* `respaced ts` — the lexemes of some tokens with spaces between them.
* `Cursor.Gives.exists_respaced` — scanned tokens that are no errors are scanned again from there.
* `compileInto_of_alike` — texts whose tokens are spelled alike, and none of them an error, are
  compiled alike.
* `scan_respaced` — what this means for the tokens of a text.
-/

/-! ### Scanning again -/

/-- Tokens written behind each other, with a space between two of them. -/
def respaced (ts : List Token) : String := " ".intercalate (ts.map Token.text)

/-- One token alone needs no space. -/
theorem toList_respaced_singleton (t : Token) : (respaced [t]).toList = t.lexeme.toList := by
  simp [respaced, Token.text]

/-- A space divides a token from those behind it. -/
theorem toList_respaced_cons (t : Token) {ts : List Token} (h : ts ≠ []) :
    (respaced (t :: ts)).toList = t.lexeme.toList ++ ' ' :: (respaced ts).toList := by
  obtain ⟨u, us, rfl⟩ := List.exists_cons_of_ne_nil h
  simp [respaced, Token.text]

/-- Scanned tokens that are no errors are scanned again when they are written with spaces. -/
theorem Cursor.Gives.exists_respaced {c c' : Cursor} {ts : List Token} (h : Gives c ts c')
    (hts : ∀ t ∈ ts, t.kind ≠ .error) (position : Position) :
    ∃ us finish, Gives ⟨(respaced ts).toList, position⟩ us ⟨[], finish⟩ ∧
      us.map Token.spelling = ts.map Token.spelling := by
  induction h generalizing position with
  | nil => exact ⟨[], position, by simpa [respaced] using Gives.nil, rfl⟩
  | @cons c c' ts hk _ ih =>
    rw [List.forall_mem_cons] at hts
    obtain ⟨m, hm⟩ := exists_shows hk
    rw [hm.token_eq] at hts ⊢
    have hclosed : ¬ (m.kind = .error ∧ m.lexeme = unterminatedString) := fun h => hts.1 h.1
    have hlexeme : m.lexeme.toList = m.span := by
      rw [hm.munched.lexeme_eq hts.1, String.toList_ofList]
    by_cases hnil : ts = []
    · -- The last token stands before the end of the text.
      have hlast := hm.gives_clipped hclosed .ends position
      refine ⟨[⟨m.kind, m.lexeme, position⟩], position.after m.span, ?_, ?_⟩
      · rw [hnil, toList_respaced_singleton, hlexeme]
        simpa using hlast
      · simp [hnil, Token.spelling]
    · -- The others stand before a space.
      have hspace : Clipped m.rest (' ' :: (respaced ts).toList) := .blank rfl
      have hfirst := hm.gives_clipped hclosed hspace position
      obtain ⟨us, finish, hgives, hus⟩ := ih hts.2 ((position.after m.span).next ' ')
      have hne : us ≠ [] := by
        rintro rfl
        simp [eq_comm, hnil] at hus
      refine ⟨⟨m.kind, m.lexeme, position⟩ :: us, finish, ?_, ?_⟩
      · rw [toList_respaced_cons _ hnil, hlexeme]
        exact hfirst.trans (hgives.behind_blank hne rfl)
      · simp [hus, Token.spelling]

/-! ### Compiling again -/

/-- If there is no error of the text, complaints are all that is said. -/
theorem map_cause_eq {ds : List Diagnostic} (h : flawsOf ds = []) :
    ds.map Diagnostic.cause = (complaintsOf ds).map (fun r => .grammatical r.1) := by
  induction ds with
  | nil => rfl
  | cons d ds ih =>
    obtain ⟨cause, position⟩ := d
    cases cause with
    | lexical message => cases h
    | grammatical complaint => exact congrArg (_ :: ·) (ih h)

/-- Without errors in a text, compiling tells none. -/
theorem flawsOf_compileInto {source : String} (h : ∀ t ∈ (scan source).toList, t.kind ≠ .error)
    (chunk : Chunk) : flawsOf (compileInto chunk source).diagnostics = [] := by
  obtain ⟨as, n, hparse, hcovers, -⟩ := exists_covers_parse (scan source)
  rw [diagnostics_compileInto hparse, Assembly.flawsOf_remarksAll, List.map_eq_nil_iff,
    List.eq_nil_iff_forall_not_mem]
  intro t ht
  have herror : t.kind = .error := by
    rw [hcovers.scannedFlaws_eq] at ht
    simpa [Token.isError] using List.of_mem_filter ht
  exact h t (List.mem_append_left _ (hcovers.mem_body_of_mem_scannedFlaws ht)) herror

/-- Without errors, all tokens are visible. -/
theorem TokenStream.visible_eq_toList {s : TokenStream} (h : ∀ t ∈ s.toList, t.kind ≠ .error) :
    s.visible = s.toList :=
  List.filter_eq_self.2 fun t ht => by simp [Token.isError, h t ht]

/-- Complaints about related tokens are the same complaints. -/
theorem map_cause_eq_of_alike {R : Token → Token → Prop} {ds es : List (Complaint × Position)}
    (h : List.Forall₂ (LocatedAlike R) ds es) :
    ds.map (fun r => Diagnostic.Cause.grammatical r.1) = es.map (fun r => .grammatical r.1) := by
  induction h with
  | nil => rfl
  | cons hde _ ih => rw [List.map_cons, List.map_cons, hde.1, ih]

/-- Texts whose tokens are spelled alike, and none of them an error, are compiled alike. -/
theorem compileInto_of_alike {source source' : String}
    (h : (scan source).toList.map Token.spelling = (scan source').toList.map Token.spelling)
    (herror' : ∀ t ∈ (scan source').toList, t.kind ≠ .error) (chunk : Chunk) :
    (compileInto chunk source).chunk = (compileInto chunk source').chunk ∧
      (compileInto chunk source).diagnostics.map Diagnostic.cause
        = (compileInto chunk source').diagnostics.map Diagnostic.cause := by
  have herror : ∀ t ∈ (scan source).toList, t.kind ≠ .error := by
    intro t ht
    obtain ⟨u, hu, hsame⟩ := List.mem_map.1 (h ▸ List.mem_map_of_mem ht)
    rw [← show u.kind = t.kind from congrArg Prod.fst hsame]
    exact herror' u hu
  have hvisible : (scan source).visible.map Token.spelling
      = (scan source').visible.map Token.spelling := by
    rw [TokenStream.visible_eq_toList herror, TokenStream.visible_eq_toList herror', h]
  have hlength : (scan source).visible.length = (scan source').visible.length := by
    simpa using congrArg List.length hvisible
  have hspelling : ∀ n, ((scan source).purged.get n).spelling
      = ((scan source').purged.get n).spelling :=
    fun n => (TokenStream.corresponding_get hlength n).spelling_eq hvisible
  have hruns := alikeRuns_parse (R := fun t u => t.spelling = u.spelling)
    (fun t u htu => congrArg Prod.fst htu) hspelling
  have hstart : Assembly.Alike (fun t u => t.spelling = u.spelling) { chunk } { chunk } :=
    ⟨rfl, rfl, .nil⟩
  have hend := hstart.performAll (fun t u htu => congrArg Prod.snd htu) hruns
  refine ⟨hend.chunk, ?_⟩
  rw [map_cause_eq (flawsOf_compileInto herror chunk),
    map_cause_eq (flawsOf_compileInto herror' chunk)]
  exact map_cause_eq_of_alike hend.complaints

/-- The tokens of a text are scanned again, up to the end of the text. -/
theorem map_spelling_scan_respaced {source : String}
    (h : ∀ t ∈ (scan source).toList, t.kind ≠ .error) :
    (scan (respaced (scan source).body)).toList.map Token.spelling
      = (scan source).toList.map Token.spelling := by
  obtain ⟨c, hgives, -⟩ := Cursor.exists_gives_of_scan_body
    (show (Cursor.ofSource source).scan.body = (scan source).body ++ [] from
      (List.append_nil _).symm)
  obtain ⟨us, finish, hagain, hus⟩ :=
    hgives.exists_respaced (fun t ht => h t (List.mem_append_left _ ht)) .start
  have hscan : (scan (respaced (scan source).body)).toList
      = us ++ (Cursor.scan ⟨[], finish⟩).toList :=
    hagain.scan_toList
  have hend : Cursor.scan ⟨[], finish⟩ = ⟨[], finish⟩ := Cursor.scan_of_eof rfl
  rw [hscan, hend, List.map_append, hus]
  simp [TokenStream.toList, TokenStream.eof, Token.spelling]

/-- **Tokens that are written again are scanned and compiled again.** If no token of a text is an
    error, then its lexemes with spaces between them are scanned to tokens that are spelled alike.
    Compiling them at the end of any chunk leads to the same code and constants, and to the same
    complaints. -/
theorem scan_respaced (source : String) (h : ∀ t ∈ (scan source).toList, t.kind ≠ .error) :
    (scan (respaced (scan source).body)).toList.map Token.spelling
        = (scan source).toList.map Token.spelling ∧
      ∀ chunk,
        (compileInto chunk (respaced (scan source).body)).chunk = (compileInto chunk source).chunk ∧
          (compileInto chunk (respaced (scan source).body)).diagnostics.map Diagnostic.cause
            = (compileInto chunk source).diagnostics.map Diagnostic.cause :=
  ⟨map_spelling_scan_respaced h,
    fun chunk => compileInto_of_alike (map_spelling_scan_respaced h) h chunk⟩

/-- Slashes and points stay apart, and a string keeps what it holds. -/
theorem scan_respaced_apart :
    (∀ t ∈ (scan "1.5.2/ /\"a// b\"<=x // c\n==1.").toList, t.kind ≠ .error) ∧
      respaced (scan "1.5.2/ /\"a// b\"<=x // c\n==1.").body
        = "1.5 . 2 / / \"a// b\" <= x == 1 ." ∧
      (scan "1.5 . 2 / / \"a// b\" <= x == 1 .").toList.map Token.spelling
        = (scan "1.5.2/ /\"a// b\"<=x // c\n==1.").toList.map Token.spelling := by
  have hclosed : ∀ t ∈ (scan "1.5.2/ /\"a// b\"<=x // c\n==1.").toList, t.kind ≠ .error := by
    decide +kernel
  have htext : respaced (scan "1.5.2/ /\"a// b\"<=x // c\n==1.").body
      = "1.5 . 2 / / \"a// b\" <= x == 1 ." := by decide +kernel
  exact ⟨hclosed, htext, htext ▸ (scan_respaced _ hclosed).1⟩

end Abacus
