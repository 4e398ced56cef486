import Abacus.Proofs.LayoutIndependence
import Abacus.Proofs.Munching

namespace Abacus

/-!
# What is said about a run of actions

Every diagnostic is about one token: a scanned error is repeated as it is, and a complaint stands
where the action that leads to it has its token.

* `Assembly.mem_remarks` — the diagnostics that one action can lead to.
* `Assembly.remarksAll` — those that actions lead to, one after the other.
* `flawsOf` — the errors of the text among some diagnostics; `Assembly.flawsOf_remarksAll` says
  that they are the scanned errors.
* `Assembly.pairwise_complaintsOf` — complaints are ordered as the tokens that actions are about.
* `scannerMessages` — all that an error of a text can say.
-/

/-- The token that an action may complain about. -/
def Action.site? : Action → Option Token
  | .literal t | .report _ t => some t
  | .scan _ | .consume _ | .enter | .leave | .extend _ | .apply _ _ | .emit _ | .merge => none

/-- The complaints about a number that becomes a constant. -/
def literalComplaints : List Complaint := [.tooManyConstants, .tooDeepForStack, .invalidNumber]

namespace Assembly

variable {a : Assembly} {x : Action} {as : List Action} {d : Diagnostic}

/-- What one action leads to: a scanned error is repeated, and all else is a complaint about the
    token of the action. What is no complaint about a number has to be reported. -/
theorem mem_remarks (h : d ∈ a.remarks x) :
    (∃ t, x = .scan t ∧ t.isError = true ∧ d = ⟨.lexical t.lexeme, t.position⟩) ∨
      ∃ complaint t, x.site? = some t ∧ d = ⟨.grammatical complaint, t.position⟩ ∧
        (complaint ∉ literalComplaints → x = .report complaint t) := by
  cases x with
  | scan t =>
    rw [remarks] at h
    split at h
    · next ht => exact .inl ⟨t, rfl, ht, List.mem_singleton.1 h⟩
    · cases h
  | literal t =>
    right
    rw [remarks] at h
    split at h
    · rw [List.mem_append] at h
      rcases h with h | h
      · split at h
        · cases h
        · exact ⟨.tooManyConstants, t, rfl, List.mem_singleton.1 h, by simp [literalComplaints]⟩
      · split at h
        · exact ⟨.tooDeepForStack, t, rfl, List.mem_singleton.1 h, by simp [literalComplaints]⟩
        · cases h
    · exact ⟨.invalidNumber, t, rfl, List.mem_singleton.1 h, by simp [literalComplaints]⟩
  | report complaint t => exact .inr ⟨complaint, t, rfl, List.mem_singleton.1 h, fun _ => rfl⟩
  | _ => cases h

/-- What is said about actions, one after the other. -/
def remarksAll : Assembly → List Action → List Diagnostic
  | _, [] => []
  | a, x :: as => a.remarks x ++ (a.perform x).remarksAll as

/-- What actions remark is added to the diagnostics. -/
theorem performAll_diagnostics (a : Assembly) (as : List Action) :
    (a.performAll as).diagnostics.toList = a.diagnostics.toList ++ a.remarksAll as := by
  induction as generalizing a with
  | nil => exact (List.append_nil _).symm
  | cons x as ih => rw [performAll_cons, ih, perform_diagnostics, remarksAll, List.append_assoc]

theorem remarksAll_append (a : Assembly) (as bs : List Action) :
    a.remarksAll (as ++ bs) = a.remarksAll as ++ (a.performAll as).remarksAll bs := by
  induction as generalizing a with
  | nil => rfl
  | cons x as ih => rw [List.cons_append, remarksAll, remarksAll, ih, List.append_assoc]; rfl

/-- All that is said is said about one of the actions. -/
theorem exists_mem_remarks (h : d ∈ a.remarksAll as) :
    ∃ x ∈ as, ∃ b : Assembly, d ∈ b.remarks x := by
  induction as generalizing a with
  | nil => cases h
  | cons x as ih =>
    rw [remarksAll, List.mem_append] at h
    rcases h with h | h
    · exact ⟨x, List.mem_cons_self .., a, h⟩
    · obtain ⟨y, hy, hb⟩ := ih h
      exact ⟨y, List.mem_cons_of_mem _ hy, hb⟩

end Assembly

/-! ### Errors of the text -/

/-- The error of the text that a diagnostic repeats, and its position. -/
def Diagnostic.flaw? : Diagnostic → Option (String × Position)
  | ⟨.lexical message, position⟩ => some (message, position)
  | ⟨.grammatical _, _⟩ => none

/-- The errors of the text among some diagnostics. -/
def flawsOf (ds : List Diagnostic) : List (String × Position) := ds.filterMap Diagnostic.flaw?

/-- What an error says, and where. -/
def Token.flaw (t : Token) : String × Position := (t.lexeme, t.position)

/-- An error that is scanned is among the scanned errors. -/
theorem mem_scannedFlaws {as : List Action} {t : Token} (h : .scan t ∈ as)
    (ht : t.isError = true) : t ∈ scannedFlaws as := by
  refine List.mem_flatMap.2 ⟨_, h, ?_⟩
  simp [Action.flaws, ht]

/-- The scanned errors are the errors among the scanned tokens. -/
theorem filter_isError_scanned (as : List Action) :
    (as.filterMap Action.scanned?).filter (·.isError) = scannedFlaws as := by
  induction as with
  | nil => rfl
  | cons x as ih =>
    rw [scannedFlaws_cons, ← ih]
    cases x with
    | scan t => exact List.filter_append (p := (·.isError)) [t] _
    | _ => rfl

namespace Assembly

/-- What an action remarks about the text are the errors that it scans. -/
theorem flawsOf_remarks (a : Assembly) (x : Action) :
    flawsOf (a.remarks x) = x.flaws.map Token.flaw := by
  cases x with
  | scan t =>
    rw [remarks, Action.flaws, List.filter_singleton]
    cases t.isError <;> rfl
  | literal t =>
    rw [flawsOf, List.filterMap_eq_nil_iff.2]
    · rfl
    · intro d hd
      rcases mem_remarks hd with ⟨_, hx, _⟩ | ⟨_, _, _, rfl, _⟩
      · cases hx
      · rfl
  | _ => rfl

/-- The errors of the text that are told are those that are scanned. -/
theorem flawsOf_remarksAll (a : Assembly) (as : List Action) :
    flawsOf (a.remarksAll as) = (scannedFlaws as).map Token.flaw := by
  induction as generalizing a with
  | nil => rfl
  | cons x as ih =>
    rw [remarksAll, scannedFlaws_cons, List.map_append, ← ih (a.perform x), ← a.flawsOf_remarks x]
    exact List.filterMap_append

/-! ### Complaints -/

variable {a : Assembly} {x : Action} {as : List Action}

/-- A complaint stands where the action has its token. -/
theorem exists_site_of_mem_remarks {p : Position}
    (h : p ∈ (complaintsOf (a.remarks x)).map Prod.snd) :
    ∃ t, x.site? = some t ∧ t.position = p := by
  obtain ⟨r, hr, rfl⟩ := List.mem_map.1 h
  obtain ⟨d, hd, hdr⟩ := List.mem_filterMap.1 hr
  rcases mem_remarks hd with ⟨_, _, _, rfl⟩ | ⟨_, t, hsite, rfl, _⟩
  · cases hdr
  · obtain rfl := Option.some.inj hdr
    exact ⟨t, hsite, rfl⟩

/-- Every complaint is at a token that an action may complain about. -/
theorem exists_site_of_mem_remarksAll {p : Position}
    (h : p ∈ (complaintsOf (a.remarksAll as)).map Prod.snd) :
    ∃ t ∈ as.filterMap Action.site?, t.position = p := by
  obtain ⟨r, hr, rfl⟩ := List.mem_map.1 h
  obtain ⟨d, hd, hdr⟩ := List.mem_filterMap.1 hr
  obtain ⟨x, hx, b, hd⟩ := exists_mem_remarks hd
  have hmem : r.2 ∈ (complaintsOf (b.remarks x)).map Prod.snd :=
    List.mem_map_of_mem (List.mem_filterMap.2 ⟨d, hd, hdr⟩)
  obtain ⟨t, hsite, ht⟩ := exists_site_of_mem_remarks hmem
  exact ⟨t, List.mem_filterMap.2 ⟨x, hx, hsite⟩, ht⟩

/-- Complaints follow each other as the tokens do that the actions are about. -/
theorem pairwise_complaintsOf {R : Position → Position → Prop} [Std.Refl R] (a : Assembly)
    (h : ((as.filterMap Action.site?).map Token.position).Pairwise R) :
    ((complaintsOf (a.remarksAll as)).map Prod.snd).Pairwise R := by
  induction as generalizing a with
  | nil => exact .nil
  | cons x as ih =>
    rw [remarksAll, complaintsOf_append, List.map_append, List.pairwise_append]
    cases hsite : x.site? with
    | none =>
      rw [List.filterMap_cons_none hsite] at h
      have hnone : ∀ p, p ∉ (complaintsOf (a.remarks x)).map Prod.snd := by
        intro p hp
        obtain ⟨t, ht, -⟩ := exists_site_of_mem_remarks hp
        cases hsite.symm.trans ht
      rw [List.eq_nil_iff_forall_not_mem.2 hnone]
      exact ⟨.nil, ih _ h, nofun⟩
    | some t =>
      rw [List.filterMap_cons_some hsite, List.map_cons, List.pairwise_cons] at h
      -- What is said about one action stands at one place.
      have hhere : ∀ p ∈ (complaintsOf (a.remarks x)).map Prod.snd, p = t.position := by
        intro p hp
        obtain ⟨u, hu, rfl⟩ := exists_site_of_mem_remarks hp
        rw [Option.some.inj (hsite.symm.trans hu)]
      refine ⟨?_, ih _ h.2, ?_⟩
      · refine List.pairwise_of_forall_mem_list ?_
        intro p hp q hq
        rw [hhere p hp, hhere q hq]
        exact Std.Refl.refl _
      · intro p hp q hq
        obtain ⟨u, hu, rfl⟩ := exists_site_of_mem_remarksAll hq
        rw [hhere p hp]
        exact h.1 _ (List.mem_map_of_mem hu)

end Assembly

/-! ### Wording -/

/-- The wordings of the errors of a text. -/
def scannerMessages : List String := [unterminatedString, unexpectedCharacter]

/-- What is said about an error is one of the scanner's messages. -/
theorem Munched.lexeme_mem {m : Munch} (h : Munched m) (herror : m.kind = .error) :
    m.lexeme ∈ scannerMessages := by
  cases h with
  | @word c cs _ _ _ _ =>
    rcases wordKind_cases (c :: cs) with ⟨k, -, hk⟩ | ⟨-, hk⟩
    · cases hk.symm.trans herror
    · cases hk.symm.trans herror
  | unclosed _ => exact List.mem_cons_self ..
  | unexpected _ => exact List.mem_cons_of_mem _ (List.mem_cons_self ..)
  | _ => cases herror

/-- An error of a text says one of a few things, whatever the text is. -/
theorem lexeme_mem_scannerMessages {source : String} {t : Token} (h : t ∈ (scan source).body)
    (ht : t.isError = true) : t.lexeme ∈ scannerMessages := by
  obtain ⟨c, cs, hkind, hlexeme⟩ := Cursor.exists_munch_of_mem_scan _ h
  rw [hlexeme]
  refine (munched_munch c cs).lexeme_mem ?_
  rw [← hkind]
  simpa [Token.isError] using ht

/-- Complaints are told apart by their wording. -/
theorem Complaint.message_injective : Function.Injective Complaint.message := by
  intro complaint complaint' h
  cases complaint <;> cases complaint' <;> first | rfl | exact absurd h (by decide)

/-- No complaint is worded like a message of the scanner. -/
theorem Complaint.message_notMem_scannerMessages (complaint : Complaint) :
    complaint.message ∉ scannerMessages := by
  cases complaint <;> decide

namespace Assembly

variable {source : String} {a : Assembly} {as : List Action} {d : Diagnostic}
  {complaint : Complaint}

/-- Among what is said about actions that scan a text, the wording tells which complaint it is. -/
theorem cause_eq_of_message (hflaws : ∀ t ∈ scannedFlaws as, t ∈ (scan source).body)
    (hd : d ∈ a.remarksAll as) (hm : d.cause.message = complaint.message) :
    d.cause = .grammatical complaint := by
  obtain ⟨x, hx, b, hd⟩ := exists_mem_remarks hd
  rcases mem_remarks hd with ⟨t, rfl, ht, rfl⟩ | ⟨complaint', t, -, rfl, -⟩
  · have hlexeme := lexeme_mem_scannerMessages (hflaws t (mem_scannedFlaws hx ht)) ht
    rw [show t.lexeme = complaint.message from hm] at hlexeme
    exact absurd hlexeme complaint.message_notMem_scannerMessages
  · rw [Complaint.message_injective hm]

/-- What is reported is said. -/
theorem mem_remarksAll_of_report {t : Token} (a : Assembly) (h : .report complaint t ∈ as) :
    ⟨.grammatical complaint, t.position⟩ ∈ a.remarksAll as := by
  obtain ⟨before, after, rfl⟩ := List.append_of_mem h
  rw [remarksAll_append, List.mem_append, remarksAll, List.mem_append]
  exact .inr (.inl (List.mem_singleton.2 rfl))

/-- What is no complaint about a number is said only where it is reported. -/
theorem exists_report_of_cause (hd : d ∈ a.remarksAll as)
    (hcause : d.cause = .grammatical complaint) (hne : complaint ∉ literalComplaints) :
    ∃ t, .report complaint t ∈ as ∧ d.position = t.position := by
  obtain ⟨x, hx, b, hd⟩ := exists_mem_remarks hd
  rcases mem_remarks hd with ⟨t, -, -, rfl⟩ | ⟨complaint', t, -, rfl, hreport⟩
  · cases hcause
  · injection hcause with hcause
    subst hcause
    exact ⟨t, hreport hne ▸ hx, rfl⟩

end Assembly

end Abacus
