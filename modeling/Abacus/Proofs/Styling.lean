import Abacus.Proofs.Printable
import Abacus.Proofs.Reports
import Abacus.Proofs.TokenLog

namespace Abacus

/-!
# Colour is only styling

A report without colour holds no escape character, whatever the source text is: what is said about
a text is worded in advance. In colour it says the same, and escape sequences stand around it.

* `fixedMessages` — all that can be said about a source text.
* `IsPlain` — a text holds no escape character; `Layout.isPlain_write`, `Chunk.isPlain_disassemble`
  and the like say so of what is printed.
* `unstyled` — a text without its escape sequences; `Notice.withoutStyles_render` says that this
  takes the colour off a notice.
* `Session.evaluate_styling` — what this means for reports.
-/

/-! ### Wording -/

/-- Every complaint once. -/
def Complaint.all : List Complaint :=
  [expectExpression, expectClosing, expectEnd, tooManyConstants, tooDeepForStack, nestedTooDeeply,
    invalidNumber]

theorem Complaint.mem_all (c : Complaint) : c ∈ all := by cases c <;> decide

/-- All that can be said about a source text. -/
def fixedMessages : List String := scannerMessages ++ Complaint.all.map Complaint.message

/-- What is said about a source text is worded in advance. -/
theorem message_mem_fixedMessages {chunk : Chunk} {source : String} {d : Diagnostic}
    (h : d ∈ (compileInto chunk source).diagnostics) : d.cause.message ∈ fixedMessages := by
  rcases exists_token_of_mem_diagnostics h with ⟨t, hbody, ht, rfl⟩ | ⟨complaint, t, -, rfl⟩
  · exact List.mem_append_left _ (lexeme_mem_scannerMessages hbody ht)
  · exact List.mem_append_right _ (List.mem_map_of_mem complaint.mem_all)

/-! ### Plain texts -/

/-- The character that begins a sequence which styles the text behind it. -/
def escape : Char := '\x1b'

/-- A text holds no escape character. -/
def IsPlain (s : String) : Prop := escape ∉ s.toList

instance (s : String) : Decidable (IsPlain s) := inferInstanceAs (Decidable (_ ∉ _))

theorem IsPlain.append {s t : String} (hs : IsPlain s) (ht : IsPlain t) : IsPlain (s ++ t) := by
  rw [IsPlain, String.toList_append, List.mem_append, not_or]
  exact ⟨hs, ht⟩

theorem IsPlain.join {ss : List String} (h : ∀ s ∈ ss, IsPlain s) : IsPlain (String.join ss) := by
  induction ss with
  | nil => decide
  | cons s ss ih =>
    rw [List.forall_mem_cons] at h
    rw [String.join_cons]
    exact h.1.append (ih h.2)

/-- The fixed messages are plain. -/
theorem isPlain_of_mem_fixedMessages {s : String} (h : s ∈ fixedMessages) : IsPlain s := by
  revert s
  decide +kernel

/-- An escape takes up no place in a line. -/
theorem IsPrintable.isPlain {s : String} (h : IsPrintable s) : IsPlain s := h.notMem rfl

/-! ### What is printed is plain -/

theorem isPlain_toString (n : Nat) : IsPlain (toString n) := (isPrintable_toString n).isPlain

theorem isPlain_addressText (address : Nat) : IsPlain (addressText address) :=
  (isPrintable_addressText address).isPlain

theorem Layout.isPlain_write (x : Float) : IsPlain (plain.write x) := (isPrintable_write x).isPlain

/-- A listing is plain if its name is. -/
theorem Chunk.isPlain_disassemble (c : Chunk) {name : String} (h : IsPlain name) :
    IsPlain (c.disassemble name) := by
  have hheading : IsPlain ("== " ++ name ++ " ==\n") := .append (.append (by decide) h) (by decide)
  refine hheading.append (.join ?_)
  rw [List.forall_mem_map]
  rintro ⟨address, instruction⟩ -
  exact (isPrintable_listingLine address instruction).isPlain.append (by decide)

namespace Notice

/-- So is the place of a notice. -/
theorem isPlain_location (n : Notice) {name : String} (h : IsPlain name) :
    IsPlain (n.location name) := by
  unfold location
  split
  · exact (h.append (by decide)).append (isPlain_addressText _)
  · have hline : IsPlain (name ++ ":" ++ toString n.line) :=
      (h.append (by decide)).append (isPlain_toString _)
    exact (hline.append (by decide)).append (isPlain_toString _)

/-- The label of a notice is plain. -/
theorem isPlain_label (n : Notice) : IsPlain n.label := by
  unfold label
  split <;> decide

/-- A notice without colour is plain if its message and the name are. -/
theorem isPlain_render (n : Notice) {name : String} (hmessage : IsPlain n.message)
    (hname : IsPlain name) : IsPlain (n.render name false) := by
  have hfirst : IsPlain (n.label ++ n.message ++ "\n") :=
    (n.isPlain_label.append hmessage).append (by decide)
  have hsecond := (hfirst.append (show IsPlain arrow by decide)).append (n.isPlain_location hname)
  exact hsecond.append (by decide)

end Notice

/-! ### Taking colour off -/

/-- Characters without the sequences that begin with an escape and a bracket and end with an `m`.
    The flag tells whether the characters begin inside a sequence. -/
def withoutStyles : (inside : Bool) → List Char → List Char
  | _, [] => []
  | true, c :: cs => withoutStyles (c != 'm') cs
  | false, '\x1b' :: '[' :: cs => withoutStyles true cs
  | false, c :: cs => c :: withoutStyles false cs

/-- A text without the sequences that style it. -/
def unstyled (s : String) : String := String.ofList (withoutStyles false s.toList)

/-- A plain text stays as it is. -/
theorem withoutStyles_append {cs : List Char} (h : escape ∉ cs) (rest : List Char) :
    withoutStyles false (cs ++ rest) = cs ++ withoutStyles false rest := by
  induction cs with
  | nil => rfl
  | cons c cs ih =>
    rw [List.mem_cons, not_or] at h
    rw [List.cons_append, withoutStyles, ih h.2, List.cons_append]
    -- The last clause applies, since the character begins no sequence.
    rintro cs' rfl -
    exact h.1 rfl

/-- A sequence is taken off up to its end. -/
theorem withoutStyles_inside {cs : List Char} (h : 'm' ∉ cs) (rest : List Char) :
    withoutStyles true (cs ++ 'm' :: rest) = withoutStyles false rest := by
  induction cs with
  | nil => rfl
  | cons c cs ih =>
    rw [List.mem_cons, not_or] at h
    have hne : (c != 'm') = true := bne_iff_ne.2 (Ne.symm h.1)
    rw [List.cons_append, withoutStyles, hne, ih h.2]

/-- Taking colour off a painted text gives the text. -/
theorem withoutStyles_paint (style : Style) {s : String} (h : IsPlain s) (rest : List Char) :
    withoutStyles false ((style.paint s).toList ++ rest)
      = s.toList ++ withoutStyles false rest := by
  have hcode : 'm' ∉ style.code.toList := by cases style <;> decide
  have hpaint : (style.paint s).toList ++ rest
      = '\x1b' :: '[' :: (style.code.toList ++ 'm' :: (s.toList
        ++ '\x1b' :: '[' :: (['0'] ++ 'm' :: rest))) := by
    simp [Style.paint]
  rw [hpaint, withoutStyles, withoutStyles_inside hcode, withoutStyles_append h, withoutStyles,
    withoutStyles_inside (by decide)]

/-- Without its styles a coloured notice is the plain one. -/
theorem Notice.withoutStyles_render (n : Notice) {name : String} (hmessage : IsPlain n.message)
    (hname : IsPlain name) (rest : List Char) :
    withoutStyles false ((n.render name true).toList ++ rest)
      = (n.render name false).toList ++ withoutStyles false rest := by
  have hline : IsPlain "\n" := by decide
  have hlocation : IsPlain (n.location name ++ "\n") := (n.isPlain_location hname).append hline
  calc withoutStyles false ((n.render name true).toList ++ rest)
    _ = withoutStyles false ((Style.boldRed.paint n.label).toList
          ++ ((Style.bold.paint n.message).toList ++ ("\n".toList
            ++ ((Style.blue.paint arrow).toList
              ++ ((n.location name ++ "\n").toList ++ rest))))) := by
        simp only [render, if_true, String.toList_append, List.append_assoc]
    _ = n.label.toList ++ (n.message.toList ++ ("\n".toList ++ (arrow.toList
          ++ ((n.location name ++ "\n").toList ++ withoutStyles false rest)))) := by
        rw [withoutStyles_paint _ n.isPlain_label, withoutStyles_paint _ hmessage,
          withoutStyles_append hline, withoutStyles_paint _ (by decide),
          withoutStyles_append hlocation]
    _ = (n.render name false).toList ++ withoutStyles false rest := by
        simp [render]

/-! ### Reports -/

/-- The notice of a diagnostic has a plain message. -/
theorem isPlain_message_notice {source : String} {d : Diagnostic}
    (h : d ∈ (compileInto .empty source).diagnostics) : IsPlain d.notice.message := by
  have hmessage : d.notice.message = d.cause.message := by
    obtain ⟨cause, position⟩ := d
    cases cause <;> rfl
  rw [hmessage]
  exact isPlain_of_mem_fixedMessages (message_mem_fixedMessages h)

/-- Without their styles, coloured notices in a row are the plain ones in a row. -/
theorem unstyled_join_render {ds : List Diagnostic} {name : String} (hname : IsPlain name)
    (h : ∀ d ∈ ds, IsPlain d.notice.message) :
    unstyled (String.join (ds.map (·.notice.render name true)))
      = String.join (ds.map (·.notice.render name false)) := by
  rw [unstyled, ← String.toList_inj, String.toList_ofList]
  induction ds with
  | nil => rfl
  | cons d ds ih =>
    rw [List.forall_mem_cons] at h
    rw [List.map_cons, List.map_cons, String.join_cons, String.join_cons, String.toList_append,
      String.toList_append, d.notice.withoutStyles_render h.1 hname, ih h.2]

namespace Session

/-- **Colour is only styling, and a source text cannot style its report.** Without colour a report
    on any source text holds no escape character, if the name holds none, and all that is said about
    the text is worded in advance. In colour the status and the output are the same, and what goes
    to the error stream is the same without its styles. -/
theorem evaluate_styling (machine : Machine) (disassemble : Bool) (source name : String)
    (h : IsPlain name) :
    let plain := (evaluate ⟨⟨disassemble, false⟩, machine⟩ source name).report
    let coloured := (evaluate ⟨⟨disassemble, true⟩, machine⟩ source name).report
    IsPlain plain.stdout ∧ IsPlain plain.stderr ∧
      (∀ chunk, ∀ d ∈ (compileInto chunk source).diagnostics, d.notice.text ∈ fixedMessages) ∧
      coloured.status = plain.status ∧ coloured.stdout = plain.stdout ∧
      unstyled coloured.stderr = plain.stderr := by
  intro plain coloured
  have hfixed : ∀ chunk, ∀ d ∈ (compileInto chunk source).diagnostics,
      d.notice.text ∈ fixedMessages := fun _ _ hd => message_mem_fixedMessages hd
  cases hcompile : compile source with
  | error ds =>
    have hmessage : ∀ d ∈ ds, IsPlain d.notice.message := by
      intro d hd
      rw [← (compile_eq_error_iff.1 hcompile).1] at hd
      exact isPlain_message_notice hd
    have hplain : plain = _ := report_of_error _ name hcompile
    have hcoloured : coloured = _ := report_of_error _ name hcompile
    rw [hplain, hcoloured]
    have hempty : IsPlain "" := by decide
    refine ⟨hempty, .join ?_, hfixed, rfl, rfl, unstyled_join_render h hmessage⟩
    rw [List.forall_mem_map]
    exact fun d hd => d.notice.isPlain_render (hmessage d hd) h
  | ok chunk =>
    -- What compiles also runs, so there is no notice, in colour or not.
    obtain ⟨-, e, x, -, -, -, hfit, hcode⟩ := exists_isCodeOf_of_compile hcompile
    have hrun := (hcode.completes hfit).result
    have hplain : plain = _ := report_of_ok _ name hcompile hrun
    have hcoloured : coloured = _ := report_of_ok _ name hcompile hrun
    rw [hplain, hcoloured]
    have hempty : IsPlain "" := by decide
    have hnothing : unstyled "" = "" := rfl
    have hlisting : IsPlain (if disassemble then chunk.disassemble name else "") := by
      split
      · exact chunk.isPlain_disassemble h
      · exact hempty
    have hline : IsPlain "\n" := by decide
    have hout := (hlisting.append (Layout.isPlain_write x.value)).append hline
    exact ⟨hout, hempty, hfixed, rfl, rfl, hnothing⟩

/-- A text that asks for red letters gets none: it is said to have characters that begin no token,
    and only the notices themselves are styled. -/
theorem evaluate_styling_red :
    unstyled (evaluate ⟨⟨true, true⟩, .initial⟩ "\x1b[31m" "calc").report.stderr
        = (evaluate ⟨⟨true, false⟩, .initial⟩ "\x1b[31m" "calc").report.stderr ∧
      (evaluate ⟨⟨true, false⟩, .initial⟩ "\x1b[31m" "calc").report.stderr
        = "error: Unexpected character.\n --> calc:1:1\n"
          ++ "error: Unexpected character.\n --> calc:1:2\n"
          ++ "error: Expect end of expression.\n --> calc:1:5\n" :=
  ⟨(evaluate_styling .initial true "\x1b[31m" "calc" (by decide)).2.2.2.2.2, by decide +kernel⟩

end Session

end Abacus
