import Abacus.Session
import Abacus.Proofs.Preservation

namespace Abacus

/-!
# What a session reports

A session keeps its machine from one evaluation to the next. Its reports do not show this: each is
told by the source text alone, and never that the bytecode failed.

* `Session.after` — a session that has been used.
* `Session.report_eq_of_config` — a report hangs on the session's configuration only.
* `Report.Describes` — what a report has to say about a source text.
* `Session.reportAfter_describes` — every report of a session says it, whatever came before.
-/

/-! ### Nothing is remembered -/

/-- Runs do not depend on what a machine ran before. -/
theorem Machine.run_eq_initial (m : Machine) (chunk : Chunk) : m.run chunk = initial.run chunk :=
  rfl

namespace Session

/-- The session after some source texts were evaluated, each under its name. -/
def after (s : Session) (history : List (String × String)) : Session :=
  history.foldl (fun s text => (s.evaluate text.1 text.2).session) s

/-- The report of a session on a source text, after a history of others. -/
def reportAfter (config : Config) (history : List (String × String)) (source name : String) :
    Report :=
  ((after { config } history).evaluate source name).report

/-- An evaluation leaves the configuration as it is, also if the text does not compile. -/
theorem config_evaluate (s : Session) (source name : String) :
    (s.evaluate source name).session.config = s.config := by
  by_cases hnil : (compileInto .empty source).diagnostics.isEmpty
  · simp only [evaluate, if_pos hnil]
  · simp only [evaluate, if_neg hnil]

/-- Evaluating texts does not change the settings. -/
theorem config_after (s : Session) (history : List (String × String)) :
    (s.after history).config = s.config := by
  induction history generalizing s with
  | nil => rfl
  | cons text history ih =>
    show ((s.evaluate text.1 text.2).session.after history).config = _
    rw [ih, config_evaluate]

/-- The machine of a session does not show in its reports. -/
theorem report_eq_of_config {s s' : Session} (h : s.config = s'.config) (source name : String) :
    (s.evaluate source name).report = (s'.evaluate source name).report := by
  by_cases hnil : (compileInto .empty source).diagnostics.isEmpty
  · simp only [evaluate, if_pos hnil, h, Machine.run_eq_initial s.machine,
      Machine.run_eq_initial s'.machine]
  · simp only [evaluate, if_neg hnil, h]

end Session

/-! ### What is said -/

/-- What a report has to say about a source text with a name. If the text does not compile, this is
    all that is wrong with it, in order; otherwise it is the value of the text's tree, after the
    listing of its code if that is wanted. -/
def Report.Describes (r : Report) (config : Config) (source name : String) : Prop :=
  match compile source with
  | .error ds =>
    r.status.code = 65 ∧ r.stdout = "" ∧ r.stderr ≠ "" ∧
      r.stderr = String.join (ds.map fun d => d.notice.render name config.color)
  | .ok chunk =>
    r.status.code = 0 ∧ r.stderr = "" ∧ ∃ e x, Derives .expr (scan source).body e ∧
      e.expr? = some x ∧
        r.stdout = (if config.disassemble then chunk.disassemble name else "")
          ++ Layout.plain.write x.value ++ "\n"

/-- A notice is never shown as nothing, for it ends its line. -/
theorem Notice.render_ne_empty (n : Notice) (source : String) (color : Bool) :
    n.render source color ≠ "" := by
  intro h
  have hline : "\n" = "" := (String.append_eq_empty_iff.1 h).2
  exact absurd hline (by decide)

/-- A source text does not compile exactly if something is found wrong with it. -/
theorem compile_eq_error_iff {source : String} {ds : List Diagnostic} :
    compile source = .error ds ↔ (compileInto .empty source).diagnostics = ds ∧ ds ≠ [] := by
  unfold compile
  by_cases hnil : (compileInto .empty source).diagnostics = []
  · simp [hnil]
  · simp only [List.isEmpty_iff, hnil, if_false, Except.error.injEq]
    exact ⟨fun h => ⟨h, h ▸ hnil⟩, fun h => h.1⟩

/-- A report that says what it has to does not tell that the bytecode failed. -/
theorem Report.Describes.code_ne_software {r : Report} {config : Config} {source name : String}
    (h : r.Describes config source name) : r.status.code ≠ 70 := by
  unfold Describes at h
  split at h
  · rw [h.1]
    decide
  · rw [h.1]
    decide

namespace Session

/-- What is reported about a text that does not compile. -/
theorem report_of_error (s : Session) {source : String} (name : String) {ds : List Diagnostic}
    (h : compile source = .error ds) :
    (s.evaluate source name).report
      = { stderr := String.join (ds.map fun d => d.notice.render name s.config.color)
          status := .dataError } := by
  obtain ⟨rfl, hne⟩ := compile_eq_error_iff.1 h
  rw [evaluate, if_neg (by simpa using hne)]

/-- What is reported about a text that compiles and has a value. -/
theorem report_of_ok (s : Session) {source : String} (name : String) {chunk : Chunk}
    {value : Float} (h : compile source = .ok chunk) (hrun : run chunk = .ok value) :
    (s.evaluate source name).report
      = { stdout := (if s.config.disassemble then chunk.disassemble name else "")
            ++ Layout.plain.write value ++ "\n" } := by
  obtain ⟨hquiet, rfl⟩ := compile_eq_ok_iff.1 h
  have hnil : (compileInto .empty source).diagnostics.isEmpty := List.isEmpty_iff.2 hquiet
  have hresult : (s.machine.run (compileInto .empty source).chunk).result = .ok value := hrun
  simp only [evaluate, if_pos hnil, hresult]

/-- A single evaluation says what it has to. That a text which compiles has a value rests on the
    agreement of compiler and machine. -/
theorem describes_report (s : Session) (source name : String) :
    (s.evaluate source name).report.Describes s.config source name := by
  unfold Report.Describes
  split
  · next ds hds =>
    rw [s.report_of_error name hds]
    refine ⟨rfl, rfl, ?_, rfl⟩
    obtain ⟨d, ds, rfl⟩ := List.exists_cons_of_ne_nil (compile_eq_error_iff.1 hds).2
    intro hempty
    rw [List.map_cons, String.join_cons, String.append_eq_empty_iff] at hempty
    exact Notice.render_ne_empty _ _ _ hempty.1
  · next chunk hchunk =>
    obtain ⟨-, e, x, d, -, hx, hfit, hcode⟩ := exists_isCodeOf_of_compile hchunk
    rw [s.report_of_ok name hchunk (hcode.completes hfit).result]
    exact ⟨rfl, rfl, e, x, d, hx, rfl⟩

/-- **Reports are exact and do not depend on history.** After any evaluations, failed ones too, a
    session reports on a source text as a new one does. The exit status never tells that the
    bytecode failed, and what is printed is the value of the text, or all that is wrong with it. -/
theorem reportAfter_describes (config : Config) (history : List (String × String))
    (source name : String) :
    reportAfter config history source name = (evaluate { config } source name).report ∧
      (reportAfter config history source name).status.code ≠ 70 ∧
        (reportAfter config history source name).Describes config source name := by
  have hnew : reportAfter config history source name = (evaluate { config } source name).report :=
    report_eq_of_config (config_after { config } history) source name
  have hdescribes := describes_report { config } source name
  rw [hnew]
  exact ⟨rfl, hdescribes.code_ne_software, hdescribes⟩

end Session

end Abacus
