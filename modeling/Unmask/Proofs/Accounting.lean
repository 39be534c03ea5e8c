/-
# `Unmask.Proofs.Accounting` — the tally can be recounted from the answers

A service counts while it answers.  Here the counting is done a second time, by
somebody who keeps the requests and the answers and knows nothing of the
service: of the submissions that were answered with 200 they count all, those
whose body says `success: false`, those whose error is that of a timeout, and the
entries of the two mappings in the bodies of the others.  After any sequence of
requests the two counts are the same (`tally_accounts`).

How a run ends is not up to the service: each run has a clock of its own, and the
work may win against it, lose, or break.

Only one step of the service touches the tally, so the proof is one lemma about
that step (`Tally.Accounts.run`), an inversion of a visit that finds the step
(`visit_accepted`, `visit_refused`, `visit_other`), and an induction over the
visits.  No answer with 200 reports a blank script: the check of a submission and
the check of a run are made in two places, and the first leaves nothing for the
second to refuse.
-/
import Mathlib.Algebra.GroupWithZero.Nat
import Mathlib.Data.String.Basic
import Unmask.Service

namespace Unmask

/-! ## What can be read off an answer -/

def Document.field? (name : String) : Document → Option Document
  | .record fields => (fields.find? fun f => f.1 == name).map Prod.snd
  | _ => none

namespace Reply

def field? (r : Reply) (name : String) : Option Document :=
  match r.content with
  | .document d => d.field? name
  | _ => none

def success? (r : Reply) : Option Bool :=
  match r.field? "success" with
  | some (.flag b) => some b
  | _ => none

def error? (r : Reply) : Option String :=
  match r.field? "error" with
  | some (.text s) => some s
  | _ => none

/-- The number of entries that the body has under a name. -/
def entries (r : Reply) (name : String) : Nat :=
  match r.field? name with
  | some (.record fields) => fields.length
  | _ => 0

end Reply

/-- Brings a script that is to be unmasked. -/
def Request.submits (r : Request) : Bool := r.method == "POST" && r.path == "/deobfuscate"

/-- The code in the body of a submission, be it blank or not. -/
def Submission.code? (body : ByteArray) : Option String :=
  (Json.read? none (bodyText body)).bind scriptOf?

/-- The answers with 200 to submissions, given all requests and all answers. -/
def finished (visits : List Service.Visit) (replies : List Reply) : List Reply :=
  ((visits.zip replies).filter fun (v, r) => v.request.submits && r.status == 200).map Prod.snd

/-- A tally is what can be counted in the answers to finished submissions. -/
structure Tally.Accounts (t : Tally) (done : List Reply) : Prop where
  runs : t.runs = done.length
  samples : t.durations.samples = done.length
  failures : t.failures = done.countP fun r => r.success? == some false
  timeouts : t.timeouts = done.countP fun r => r.error? == some Failure.timedOut.message
  names : t.names =
    ((done.filter fun r => r.success? == some true).map fun r => r.entries "mappings").sum
  numbers : t.numbers =
    ((done.filter fun r => r.success? == some true).map fun r => r.entries "numericMappings").sum

/-! ## Reading an outcome back -/

section Outcome

variable {reply : Reply} {report : Report} {failure : Failure}

theorem success?_report (h : reply.content = .document (.ofOutcome (.ok report))) :
    reply.success? = some true := by
  simp [Reply.success?, Reply.field?, h, Document.ofOutcome, Document.ofReport, Document.field?]

theorem error?_report (h : reply.content = .document (.ofOutcome (.ok report))) :
    reply.error? = none := by
  simp [Reply.error?, Reply.field?, h, Document.ofOutcome, Document.ofReport, Document.field?]

theorem entries_names (h : reply.content = .document (.ofOutcome (.ok report))) :
    reply.entries "mappings" = report.names.size := by
  simp [Reply.entries, Reply.field?, h, Document.ofOutcome, Document.ofReport, Document.field?,
    Document.ofMapping, Std.TreeMap.length_toList]

theorem entries_numbers (h : reply.content = .document (.ofOutcome (.ok report))) :
    reply.entries "numericMappings" = report.numbers.size := by
  simp [Reply.entries, Reply.field?, h, Document.ofOutcome, Document.ofReport, Document.field?,
    Document.ofMapping, Std.TreeMap.length_toList]

theorem success?_failure (h : reply.content = .document (.ofOutcome (.error failure))) :
    reply.success? = some false := by
  simp [Reply.success?, Reply.field?, h, Document.ofOutcome, Document.ofMessage, Document.field?]

theorem error?_failure (h : reply.content = .document (.ofOutcome (.error failure))) :
    reply.error? = some failure.message := by
  simp [Reply.error?, Reply.field?, h, Document.ofOutcome, Document.ofMessage, Document.field?]

end Outcome

theorem message_broken (m : String) :
    (Failure.broken m).message ≠ Failure.timedOut.message ∧
      (Failure.broken m).message ≠ Failure.blankScript.message := by
  have hfirst : (Failure.broken m).message.toList.head? = some 'p' := by
    show ("processing error: " ++ m).toList.head? = some 'p'
    have hword : "processing error: ".toList.head? = some 'p' := rfl
    rw [String.toList_append, List.head?_append, hword, Option.some_or]
  constructor
  · intro heq
    rw [heq] at hfirst
    exact absurd hfirst (by decide)
  · intro heq
    rw [heq] at hfirst
    exact absurd hfirst (by decide)

/-! ## The step that counts -/

theorem unmaskAgainst_cases (clock : Clock) (seconds : Nat) (o : Options) {source : String}
    (h : isBlankText source = false) :
    unmaskAgainst clock seconds o source = .ok (reportOf o source) ∨
      (∃ m, unmaskAgainst clock seconds o source = .error (.broken m)) ∨
      unmaskAgainst clock seconds o source = .error .timedOut := by
  have hcheck : checkScript source = .ok () := by simp [checkScript, h]
  have hunmask : unmask o source = .ok (reportOf o source) := by simp [unmask, hcheck]
  rw [unmaskAgainst, hcheck, hunmask]
  cases clock seconds with
  | won => exact Or.inl rfl
  | broken m => exact Or.inr (Or.inl ⟨m, rfl⟩)
  | lost => exact Or.inr (Or.inr rfl)

section Step

variable {t : Tally} {done : List Reply} {reply : Reply}

theorem Tally.Accounts.report (h : t.Accounts done) {report : Report} (millis : Nat)
    (hreply : reply.content = .document (.ofOutcome (.ok report))) :
    (t.record (.ok report) millis).Accounts (done ++ [reply]) := by
  have hsuccess := success?_report hreply
  have herror := error?_report hreply
  constructor <;> simp [Tally.record, Tally.count, Histogram.observe, h.runs, h.samples,
    h.failures, h.timeouts, h.names, h.numbers, hsuccess, herror, entries_names hreply,
    entries_numbers hreply]

theorem Tally.Accounts.timedOut (h : t.Accounts done) (millis : Nat)
    (hreply : reply.content = .document (.ofOutcome (.error .timedOut))) :
    (t.record (.error .timedOut) millis).Accounts (done ++ [reply]) := by
  have hsuccess := success?_failure hreply
  have herror := error?_failure hreply
  constructor <;> simp [Tally.record, Tally.count, Histogram.observe, h.runs, h.samples,
    h.failures, h.timeouts, h.names, h.numbers, hsuccess, herror]

theorem Tally.Accounts.broken (h : t.Accounts done) (m : String) (millis : Nat)
    (hreply : reply.content = .document (.ofOutcome (.error (.broken m)))) :
    (t.record (.error (.broken m)) millis).Accounts (done ++ [reply]) := by
  have hsuccess := success?_failure hreply
  have herror := error?_failure hreply
  have hmessage := (message_broken m).1
  constructor <;> simp [Tally.record, Tally.count, Histogram.observe, h.runs, h.samples,
    h.failures, h.timeouts, h.names, h.numbers, hsuccess, herror, hmessage]

/-- A run over a script that is not blank is counted just as its answer is recounted. -/
theorem Tally.Accounts.run (h : t.Accounts done) {source : String}
    (hsource : isBlankText source = false) (clock : Clock) (seconds : Nat) (o : Options)
    (millis : Nat)
    (hreply : reply.content = .document (.ofOutcome (unmaskAgainst clock seconds o source))) :
    (t.record (unmaskAgainst clock seconds o source) millis).Accounts (done ++ [reply]) := by
  rcases unmaskAgainst_cases clock seconds o hsource with houtcome | ⟨m, houtcome⟩ | houtcome
  · rw [houtcome] at hreply ⊢
    exact h.report millis hreply
  · rw [houtcome] at hreply ⊢
    exact h.broken m millis hreply
  · rw [houtcome] at hreply ⊢
    exact h.timedOut millis hreply

theorem error?_run {source : String} (hsource : isBlankText source = false) (clock : Clock)
    (seconds : Nat) (o : Options)
    (hreply : reply.content = .document (.ofOutcome (unmaskAgainst clock seconds o source))) :
    reply.error? ≠ some Failure.blankScript.message := by
  rcases unmaskAgainst_cases clock seconds o hsource with houtcome | ⟨m, houtcome⟩ | houtcome
  · rw [houtcome] at hreply
    rw [error?_report hreply]
    exact (Option.some_ne_none _).symm
  · rw [houtcome] at hreply
    rw [error?_failure hreply]
    exact fun h => (message_broken m).2 (Option.some.inj h)
  · rw [houtcome] at hreply
    rw [error?_failure hreply]
    decide

end Step

/-! ## One request -/

section Request

variable (s : Service) (v : Service.Visit)

theorem Request.asksPermission_of_submits {r : Request} (h : r.submits = true) :
    r.asksPermission = false := by
  simp only [Request.submits, Bool.and_eq_true, beq_iff_eq] at h
  simp [Request.asksPermission, h.1]

theorem visit_of_submits (h : v.request.submits = true) :
    s.visit v =
      ({ (s.submit v.request v.clock v.millis).1 with permissions := v.request.permissions },
        (s.submit v.request v.clock v.millis).2) := by
  have hroute : s.route v.request v.clock v.millis = s.submit v.request v.clock v.millis := by
    simp only [Request.submits, Bool.and_eq_true, beq_iff_eq] at h
    simp only [Service.route, h.1, h.2]
  rw [Service.visit, Service.serveAgainst, Request.asksPermission_of_submits h, hroute]
  rfl

/-- The answer to whatever is no submission reports no error, and leaves the service as it
is. -/
theorem visit_other (h : v.request.submits = false) :
    (s.visit v).1.error? = none ∧ (s.visit v).2 = s := by
  rw [Service.visit, Service.serveAgainst]
  split
  · exact ⟨rfl, rfl⟩
  · show (s.route v.request v.clock v.millis).1.error? = none ∧
      (s.route v.request v.clock v.millis).2 = s
    unfold Service.route
    split
    · next hmethod hpath => simp [Request.submits, hmethod, hpath] at h
    all_goals exact ⟨rfl, rfl⟩

theorem isBlankText_of_read? {body : ByteArray} {script : String}
    (h : Submission.read? body = some script) : isBlankText script = false := by
  simpa using (Option.filter_eq_some_iff.mp h).2

theorem isBlankText_of_script {r : Request} {limit : Nat} {script : String}
    (h : r.script limit = .ok script) : isBlankText script = false := by
  unfold Request.script at h
  split at h
  · cases h
  · split at h
    · cases h
    · split at h
      · next hread =>
          cases h
          exact isBlankText_of_read? hread
      · cases h

/-- A request that brings no script is turned down, and not counted. -/
theorem visit_refused (h : v.request.submits = true) {refusal : Refusal}
    (hscript : v.request.script s.settings.bodyLimit = .error refusal) :
    (s.visit v).1.status = refusal.status ∧ (s.visit v).2 = s := by
  rw [visit_of_submits s v h, Service.submit, hscript]
  exact ⟨rfl, rfl⟩

/-- A request that brings a script is answered with how the run over it ends, and
counted. -/
theorem visit_accepted (h : v.request.submits = true) {script : String}
    (hscript : v.request.script s.settings.bodyLimit = .ok script) :
    (s.visit v).1.status = 200 ∧
      (s.visit v).1.content = .document (.ofOutcome
        (unmaskAgainst v.clock s.settings.timeLimit s.settings.options script)) ∧
      (s.visit v).2.settings = s.settings ∧
      (s.visit v).2.tally = s.tally.record
        (unmaskAgainst v.clock s.settings.timeLimit s.settings.options script) v.millis := by
  rw [visit_of_submits s v h, Service.submit, hscript]
  exact ⟨rfl, rfl, rfl, rfl⟩

theorem Refusal.status_ne (refusal : Refusal) : refusal.status ≠ 200 := by
  cases refusal with
  | noValidCode => decide
  | tooLarge => decide

theorem error?_visit (hstatus : (s.visit v).1.status = 200) :
    (s.visit v).1.error? ≠ some Failure.blankScript.message := by
  cases hsubmits : v.request.submits with
  | false =>
      rw [(visit_other s v hsubmits).1]
      exact (Option.some_ne_none _).symm
  | true =>
      cases hscript : v.request.script s.settings.bodyLimit with
      | error refusal =>
          rw [(visit_refused s v hsubmits hscript).1] at hstatus
          exact absurd hstatus refusal.status_ne
      | ok script =>
          exact error?_run (isBlankText_of_script hscript) _ _ _
            (visit_accepted s v hsubmits hscript).2.1

/-- One visit: either it adds nothing to the finished submissions and leaves the
tally, or it adds its answer and the tally counts that. -/
theorem Tally.Accounts.visit {done : List Reply} (h : s.tally.Accounts done) :
    (s.visit v).2.tally.Accounts (done ++ finished [v] [(s.visit v).1]) := by
  cases hsubmits : v.request.submits with
  | false =>
      have hnone : finished [v] [(s.visit v).1] = [] := by simp [finished, hsubmits]
      rw [hnone, List.append_nil, (visit_other s v hsubmits).2]
      exact h
  | true =>
      cases hscript : v.request.script s.settings.bodyLimit with
      | error refusal =>
          obtain ⟨hstatus, hsame⟩ := visit_refused s v hsubmits hscript
          have hnone : finished [v] [(s.visit v).1] = [] := by
            simp [finished, hstatus, refusal.status_ne]
          rw [hnone, List.append_nil, hsame]
          exact h
      | ok script =>
          obtain ⟨hstatus, hcontent, -, htally⟩ := visit_accepted s v hsubmits hscript
          have hone : finished [v] [(s.visit v).1] = [(s.visit v).1] := by
            simp [finished, hsubmits, hstatus]
          rw [hone, htally]
          exact h.run (isBlankText_of_script hscript) _ _ _ _ hcontent

end Request

/-! ## All requests -/

theorem serveAll_cons (s : Service) (v : Service.Visit) (visits : List Service.Visit) :
    s.serveAll (v :: visits) =
      ((s.visit v).1 :: ((s.visit v).2.serveAll visits).1, ((s.visit v).2.serveAll visits).2) :=
  rfl

theorem finished_cons (v : Service.Visit) (visits : List Service.Visit) (r : Reply)
    (replies : List Reply) :
    finished (v :: visits) (r :: replies) = finished [v] [r] ++ finished visits replies := by
  simp only [finished, List.zip_cons_cons, List.zip_nil_left, ← List.map_append,
    ← List.filter_append, List.singleton_append]

theorem Tally.Accounts.serveAll (visits : List Service.Visit) :
    ∀ (s : Service) (done : List Reply), s.tally.Accounts done →
      (s.serveAll visits).2.tally.Accounts (done ++ finished visits (s.serveAll visits).1) := by
  induction visits with
  | nil =>
      intro s done h
      rw [Service.serveAll]
      simpa [finished] using h
  | cons v visits ih =>
      intro s done h
      rw [serveAll_cons, finished_cons, ← List.append_assoc]
      exact ih _ _ (h.visit s v)

theorem length_serveAll (visits : List Service.Visit) :
    ∀ s : Service, (s.serveAll visits).1.length = visits.length := by
  induction visits with
  | nil => exact fun _ => rfl
  | cons v visits ih =>
      intro s
      rw [serveAll_cons, List.length_cons, List.length_cons, ih]

theorem mem_serveAll {reply : Reply} (visits : List Service.Visit) :
    ∀ s : Service, reply ∈ (s.serveAll visits).1 → ∃ s' v, reply = (Service.visit s' v).1 := by
  induction visits with
  | nil =>
      intro s hreply
      exact absurd hreply List.not_mem_nil
  | cons v visits ih =>
      intro s hreply
      rw [serveAll_cons] at hreply
      rcases List.mem_cons.mp hreply with rfl | hlater
      · exact ⟨s, v, rfl⟩
      · exact ih _ hlater

/-! ## Scripts that are missing -/

theorem script_eq {r : Request} {limit : Nat}
    (hjson : (r.header? "content-type").any MediaType.namesJson = true)
    (hsize : r.exceeds limit = false) :
    r.script limit = match Submission.read? r.body with
      | some s => .ok s
      | none => .error .noValidCode := by
  rw [Request.script, hjson, hsize]
  rfl

theorem script_of_no_code {r : Request} (limit : Nat)
    (hcode : ∀ code, Submission.code? r.body = some code → isBlankText code = true) :
    r.script limit = .error .noValidCode ∨
      r.script limit = .error .tooLarge ∧ r.exceeds limit = true := by
  have hread : Submission.read? r.body = none := by
    refine Option.filter_eq_none_iff.mpr fun code hsome => ?_
    simp [hcode code hsome]
  unfold Request.script
  split
  · exact Or.inl rfl
  · split
    · next hexceeds => exact Or.inr ⟨rfl, hexceeds⟩
    · rw [hread]
      exact Or.inl rfl

theorem script_of_code {r : Request} {limit : Nat} {code : String}
    (hjson : (r.header? "content-type").any MediaType.namesJson = true)
    (hsize : r.exceeds limit = false) (hcode : Submission.code? r.body = some code)
    (hblank : isBlankText code = false) : r.script limit = .ok code := by
  have hread : Submission.read? r.body = some code :=
    Option.filter_eq_some_iff.mpr ⟨hcode, by simp [hblank]⟩
  rw [script_eq hjson hsize, hread]

/-! ## The tally and the answers -/

/-- After any visits to a service that has just been opened, its tally is what can be
counted in the answers with 200 to submissions, and no answer with 200 says that the
script was blank.  For a submission whose code is missing or blank is answered with 400
(or 413, if it is too large) and leaves the service as it was; and every other one that
may be read is answered with 200. -/
theorem tally_accounts (settings : Settings) (visits : List Service.Visit) :
    (Service.serveAll ⟨settings, {}⟩ visits).1.length = visits.length ∧
    (Service.serveAll ⟨settings, {}⟩ visits).2.tally.Accounts
      (finished visits (Service.serveAll ⟨settings, {}⟩ visits).1) ∧
    (∀ reply ∈ (Service.serveAll ⟨settings, {}⟩ visits).1, reply.status = 200 →
      reply.error? ≠ some Failure.blankScript.message) ∧
    (∀ (s : Service) (v : Service.Visit), v.request.submits = true →
      (∀ code, Submission.code? v.request.body = some code → isBlankText code = true) →
      ((s.visit v).1.status = 400 ∨
        (s.visit v).1.status = 413 ∧ v.request.exceeds s.settings.bodyLimit = true) ∧
      (s.visit v).2 = s) ∧
    (∀ (s : Service) (v : Service.Visit) (code : String), v.request.submits = true →
      (v.request.header? "content-type").any MediaType.namesJson = true →
      v.request.exceeds s.settings.bodyLimit = false →
      Submission.code? v.request.body = some code → isBlankText code = false →
      (s.visit v).1.status = 200) := by
  refine ⟨length_serveAll visits _, ?_, ?_, ?_, ?_⟩
  · have hopened : Tally.Accounts {} [] := by constructor <;> rfl
    exact hopened.serveAll visits ⟨settings, {}⟩ []
  · intro reply hreply hstatus
    obtain ⟨s, v, rfl⟩ := mem_serveAll visits _ hreply
    exact error?_visit s v hstatus
  · intro s v hsubmits hcode
    rcases script_of_no_code s.settings.bodyLimit hcode with hscript | ⟨hscript, hexceeds⟩
    · obtain ⟨hstatus, hsame⟩ := visit_refused s v hsubmits hscript
      exact ⟨Or.inl hstatus, hsame⟩
    · obtain ⟨hstatus, hsame⟩ := visit_refused s v hsubmits hscript
      exact ⟨Or.inr ⟨hstatus, hexceeds⟩, hsame⟩
  · intro s v code hsubmits hjson hsize hcode hblank
    exact (visit_accepted s v hsubmits (script_of_code hjson hsize hcode hblank)).1

def submission (text : String) : Request where
  method := "POST"
  target := "/deobfuscate"
  headers := [("content-type", "application/json")]
  body := text.toUTF8

/-- A run that ends in time, a blank script, a question for the metrics, a run that is
too slow and one that breaks. -/
def mixedVisits : List Service.Visit :=
  [{ request := submission "\x7b\"code\": \"var _0x1a2b = 12345;\"\x7d", millis := 7 },
   { request := submission "\x7b\"code\": \" \"\x7d" },
   { request := { target := "/metrics" } },
   { request := submission "[\"q.aB(0x41)\"]", clock := fun _ => .lost },
   { request := submission "[\"q.aB(0x41)\"]", clock := fun _ => .broken "task 7 panicked" }]

theorem tally_accounts_mixed :
    (Service.serveAll ⟨{}, {}⟩ mixedVisits).2.tally.runs = 3 ∧
      (Service.serveAll ⟨{}, {}⟩ mixedVisits).2.tally.failures = 2 ∧
      (Service.serveAll ⟨{}, {}⟩ mixedVisits).2.tally.timeouts = 1 ∧
      Submission.code? (submission "\x7b\"code\": \" \"\x7d").body = some " " ∧
      (Service.visit ⟨{}, {}⟩ { request := submission "\x7b\"code\": \" \"\x7d" }).1.status = 400 ∧
      Submission.code? (submission "[\"q.aB(0x41)\"]").body = some "q.aB(0x41)" ∧
      (Service.visit ⟨{}, {}⟩ { request := submission "[\"q.aB(0x41)\"]" }).1.status = 200 := by
  obtain ⟨-, haccounts, -, hrefused, haccepted⟩ := tally_accounts {} mixedVisits
  have hblank : Submission.code? (submission "\x7b\"code\": \" \"\x7d").body = some " " := by
    decide +kernel
  have hcode : Submission.code? (submission "[\"q.aB(0x41)\"]").body = some "q.aB(0x41)" := by
    decide +kernel
  refine ⟨haccounts.runs.trans (by decide +kernel), haccounts.failures.trans (by decide +kernel),
    haccounts.timeouts.trans (by decide +kernel), hblank, ?_, hcode, ?_⟩
  · refine (hrefused _ _ (by decide +kernel) ?_).1.resolve_right fun h => ?_
    · intro code h
      rw [hblank] at h
      cases h
      decide
    · exact absurd h.2 (by decide +kernel)
  · exact haccepted _ _ _ (by decide +kernel) (by decide +kernel) (by decide +kernel) hcode
      (by decide)

end Unmask
