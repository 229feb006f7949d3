import GradualScript.Proofs.Evaluation.Returns
import GradualScript.Proofs.Typing.Recorded

/-!
# What a session commits

An input is checked twice: whole, before anything runs, and statement by statement,
after each has run. The second way retraces the first, so it never fails, and at every
moment the session's types are those of the statements that completed.
-/
namespace GradualScript

namespace Program

variable {p q : Program} {env : TypeEnv}

theorem check_cons (s : Stmt) (p : Program) (env : TypeEnv) :
    Program.check (s :: p) env =
      let first := s.check .any env
      let rest := Checked.next first.verdict p first.env fun _ => p.check first.env
      ⟨first.tree :: rest.tree, rest.env, rest.verdict⟩ := by
  rw [check, Stmt.checkAll]
  rfl

/-- Where the first part passes, checking goes on with the second in the environment
that the first left. -/
theorem check_append (h : (p.check env).verdict = .ok ()) (q : Program) :
    (Program.check (p ++ q) env).env = (q.check (p.check env).env).env ∧
      (Program.check (p ++ q) env).verdict = (q.check (p.check env).env).verdict := by
  induction p generalizing env with
  | nil => exact ⟨rfl, rfl⟩
  | cons s p ih =>
    rw [check_cons] at h
    obtain ⟨⟨⟩, hs, hp⟩ := Checked.next_ok h
    simp only [List.cons_append, check_cons, hs, Checked.next]
    exact ih hp

theorem check_ok_of_append (h : (Program.check (p ++ q) env).verdict = .ok ()) :
    (p.check env).verdict = .ok () := by
  induction p generalizing env with
  | nil => rfl
  | cons s p ih =>
    rw [List.cons_append, check_cons] at h
    obtain ⟨⟨⟩, hs, hp⟩ := Checked.next_ok h
    simp only [check_cons, hs, Checked.next]
    exact ih hp

/-- Each statement of a program that passes also passes by itself, after those before it. -/
theorem check_single_ok {done rest : Program} {s : Stmt}
    (h : (Program.check (done ++ s :: rest) env).verdict = .ok ()) :
    (Program.check [s] (Program.check done env).env).verdict = .ok () := by
  have hdone := check_ok_of_append h
  rw [(check_append hdone (s :: rest)).2] at h
  exact check_ok_of_append (p := [s]) (q := rest) h

theorem check_stmt_ok {done rest : Program} {s : Stmt}
    (h : (Program.check (done ++ s :: rest) env).verdict = .ok ()) :
    (s.check .any (Program.check done env).env).verdict = .ok () := by
  have hs := check_single_ok h
  rw [check_cons] at hs
  obtain ⟨⟨⟩, hs, -⟩ := Checked.next_ok hs
  exact hs

end Program

/-- All statements end, one after the other, and none returns. -/
inductive Completes (limit : Option Nat) (budget : Nat) : Machine → List Stmt → Machine → Prop
  | nil (m : Machine) : Completes limit budget m [] m
  | cons {m mid last : Machine} {s : Stmt} {ss : List Stmt} :
      s.exec limit budget m = (.finished .normal, mid) → Completes limit budget mid ss last →
      Completes limit budget m (s :: ss) last

namespace Session

/-- How running checked statements ends, and what it leaves: the types of the statements
that completed and the machine of the last one that ran. -/
inductive Ran (budget : Nat) (before : Session) (ss : List Stmt) :
    Outcome Error Unit → Session → Prop
  | completed {last : Machine} : Completes before.limit budget before.machine ss last →
      Ran budget before ss (.finished ())
        ⟨(Program.check ss before.types).env, last, before.limit⟩
  | failed {done rest : List Stmt} {s : Stmt} {mid last : Machine} {e : RuntimeError} :
      ss = done ++ s :: rest → Completes before.limit budget before.machine done mid →
      s.exec before.limit budget mid = (.failed e, last) →
      Ran budget before ss (.failed (.run e))
        ⟨(Program.check done before.types).env, last, before.limit⟩
  | interrupted {done rest : List Stmt} {s : Stmt} {mid last : Machine} :
      ss = done ++ s :: rest → Completes before.limit budget before.machine done mid →
      s.exec before.limit budget mid = (.unfinished, last) →
      Ran budget before ss .unfinished
        ⟨(Program.check done before.types).env, last, before.limit⟩

variable {budget : Nat}

theorem Ran.cons {before later : Session} {s : Stmt} {ss : List Stmt} {mid : Machine}
    {outcome : Outcome Error Unit}
    (hs : s.exec before.limit budget before.machine = (.finished .normal, mid))
    (hcheck : (Program.check [s] before.types).verdict = .ok ())
    (h : Ran budget ⟨(Program.check [s] before.types).env, mid, before.limit⟩ ss outcome later) :
    Ran budget before (s :: ss) outcome later := by
  cases h with
  | completed hss =>
    rw [← (Program.check_append hcheck ss).1]
    exact .completed (.cons hs hss)
  | failed heq hdone hfail =>
    rw [← (Program.check_append hcheck _).1]
    exact .failed (congrArg (s :: ·) heq) (.cons hs hdone) hfail
  | interrupted heq hdone hstop =>
    rw [← (Program.check_append hcheck _).1]
    exact .interrupted (congrArg (s :: ·) heq) (.cons hs hdone) hstop

/-- Running statements that passed together never stops at a check. -/
theorem ran_runAll {ss : List Stmt} {session : Session} (hplaced : Stmt.PlacedIn false ss)
    (hcheck : (Program.check ss session.types).verdict = .ok ()) :
    Ran budget session ss (runAll budget session ss).1 (runAll budget session ss).2 := by
  induction ss generalizing session with
  | nil => exact .completed (.nil session.machine)
  | cons s ss ih =>
    have hs : (Program.check [s] session.types).verdict = .ok () :=
      Program.check_ok_of_append (q := ss) hcheck
    rw [runAll]
    cases hexec : s.exec session.limit budget session.machine with
    | mk outcome mid =>
      cases outcome with
      | failed e => exact .failed (List.nil_append _).symm (.nil session.machine) hexec
      | unfinished => exact .interrupted (List.nil_append _).symm (.nil session.machine) hexec
      | finished c =>
        have hnormal : c = .normal := (proceeding session.limit budget).exec s hplaced.1 _ c mid hexec
        subst hnormal
        simp only [hs]
        refine Ran.cons hexec hs (ih hplaced.2 ?_)
        have happend := (Program.check_append hs ss).2
        exact happend.symm.trans hcheck

/-- Either an input is refused, and the session is as before, or its program passed and
was run. -/
theorem run_cases (budget : Nat) (session : Session) (source : String) :
    (∃ e, e.phase ≠ .run ∧ session.run budget source = (.failed e, session)) ∨
      ∃ p, readProgram source = .ok p ∧ (p.check session.types).verdict = .ok () ∧
        Ran budget session p (session.run budget source).1 (session.run budget source).2 := by
  rw [run]
  cases hread : readProgram source with
  | error e =>
    refine .inl ⟨e, ?_, rfl⟩
    unfold readProgram at hread
    split at hread
    · cases hread
      nofun
    · next tokens _ =>
      cases hparse : parse tokens with
      | ok p =>
        rw [hparse] at hread
        cases hread
      | error fault =>
        rw [hparse] at hread
        cases hread
        nofun
  | ok p =>
    cases hcheck : (p.check session.types).verdict with
    | error fault => exact .inl ⟨.check fault, nofun, by simp only [hcheck]⟩
    | ok passed =>
      cases passed
      refine .inr ⟨p, rfl, hcheck, ?_⟩
      simp only [hcheck]
      exact ran_runAll (placedIn_of_readProgram hread) hcheck

/-- Running the input gets to the statement `s`, after `done`, and stops in it. -/
structure StopsIn (budget : Nat) (session : Session) (source : String) (done : List Stmt)
    (s : Stmt) (mid : Machine) : Prop where
  passed : ∃ rest, readProgram source = .ok (done ++ s :: rest) ∧
    (Program.check (done ++ s :: rest) session.types).verdict = .ok ()
  completes : Completes session.limit budget session.machine done mid
  stops : ∀ c, (s.exec session.limit budget mid).1 ≠ .finished c

/-- An input is refused, completes, or stops in one of its statements. -/
theorem run_ends (budget : Nat) (session : Session) (source : String) :
    (∃ e, e.phase ≠ .run ∧ session.run budget source = (.failed e, session)) ∨
    (∃ p last, readProgram source = .ok p ∧ (p.check session.types).verdict = .ok () ∧
      Completes session.limit budget session.machine p last ∧ session.run budget source =
        (.finished (), ⟨(p.check session.types).env, last, session.limit⟩)) ∨
    ∃ done s mid, StopsIn budget session source done s mid ∧
      (session.run budget source).2 = ⟨(Program.check done session.types).env,
        (s.exec session.limit budget mid).2, session.limit⟩ ∧
      ∀ e, (session.run budget source).1 = .failed (.run e) →
        (s.exec session.limit budget mid).1 = .failed e := by
  rcases session.run_cases budget source with hrefused | ⟨p, hread, hcheck, hran⟩
  · exact .inl hrefused
  · generalize session.run budget source = result at hran ⊢
    obtain ⟨outcome, later⟩ := result
    cases hran with
    | completed hall => exact .inr (.inl ⟨p, _, hread, hcheck, hall, rfl⟩)
    | @failed done rest s mid last e heq hdone hfail =>
      subst heq
      refine .inr (.inr ⟨done, s, mid, ⟨⟨rest, hread, hcheck⟩, hdone, ?_⟩, ?_, ?_⟩)
      · rw [hfail]
        nofun
      · rw [hfail]
      · rintro _ ⟨rfl⟩
        rw [hfail]
    | @interrupted done rest s mid last heq hdone hunfinished =>
      subst heq
      refine .inr (.inr ⟨done, s, mid, ⟨⟨rest, hread, hcheck⟩, hdone, ?_⟩, ?_, nofun⟩)
      · rw [hunfinished]
        nofun
      · rw [hunfinished]

/-- The session after some inputs, each with its budget. -/
def after (session : Session) (inputs : List (Nat × String)) : Session :=
  inputs.foldl (fun session input => (session.run input.1 input.2).2) session

/-- What every input keeps holds after any number of them. -/
theorem after_induction {P : Session → Prop} {Q : String → Prop} {session : Session}
    {inputs : List (Nat × String)} (hstart : P session) (hinputs : ∀ input ∈ inputs, Q input.2)
    (hrun : ∀ session budget source, P session → Q source → P (session.run budget source).2) :
    P (session.after inputs) := by
  induction inputs generalizing session with
  | nil => exact hstart
  | cons input inputs ih =>
    rw [List.forall_mem_cons] at hinputs
    exact ih (hrun session input.1 input.2 hstart hinputs.1) hinputs.2

/-- What an input leaves, for each way in which it ends.

* An error of another phase than running leaves the session as it was.
* A runtime error was raised by a statement after those before it completed. The types are
  those of the statements before it, and what follows is checked as if only these had
  been entered.
* Without an error, all statements completed, and the types are those of all.

Every statement of a program that passed as a whole passes again when it is committed. -/
theorem run_commits_completed (budget : Nat) (session : Session) (source : String) :
    (∀ e, (session.run budget source).1 = .failed e → e.phase ≠ .run →
      (session.run budget source).2 = session) ∧
    (∀ e, (session.run budget source).1 = .failed (.run e) →
      ∃ done s rest mid last, readProgram source = .ok (done ++ s :: rest) ∧
        Completes session.limit budget session.machine done mid ∧
        s.exec session.limit budget mid = (.failed e, last) ∧
        (session.run budget source).2 =
          ⟨(Program.check done session.types).env, last, session.limit⟩ ∧
        ∀ next : Program, (next.check (session.run budget source).2.types).verdict =
          (Program.check (done ++ next) session.types).verdict) ∧
    ((session.run budget source).1 = .finished () →
      ∃ p last, readProgram source = .ok p ∧
        Completes session.limit budget session.machine p last ∧
        (session.run budget source).2 = ⟨(p.check session.types).env, last, session.limit⟩) ∧
    ∀ p, readProgram source = .ok p → (p.check session.types).verdict = .ok () →
      ∀ done s rest, p = done ++ s :: rest →
        (Program.check [s] (Program.check done session.types).env).verdict = .ok () := by
  refine ⟨fun e herror hphase => ?_, fun e herror => ?_, fun hfinished => ?_,
    fun p _ hcheck done s rest heq => Program.check_single_ok (heq ▸ hcheck)⟩
  · rcases session.run_cases budget source with ⟨_, -, hrun⟩ | ⟨p, -, -, hran⟩
    · rw [hrun]
    · generalize (session.run budget source).2 = later at hran ⊢
      rw [herror] at hran
      cases hran
      exact absurd rfl hphase
  · rcases session.run_cases budget source with ⟨_, hother, hrun⟩ | ⟨p, hread, hcheck, hran⟩
    · rw [hrun] at herror
      cases herror
      exact absurd rfl hother
    · generalize (session.run budget source).2 = later at hran ⊢
      rw [herror] at hran
      cases hran with
      | @failed done rest s mid last _ heq hdone hfail =>
        subst heq
        have hpassed := Program.check_ok_of_append hcheck
        exact ⟨done, s, rest, mid, last, hread, hdone, hfail, rfl,
          fun next => (Program.check_append hpassed next).2.symm⟩
  · rcases session.run_cases budget source with ⟨_, -, hrun⟩ | ⟨p, hread, -, hran⟩
    · rw [hrun] at hfinished
      cases hfinished
    · generalize (session.run budget source).2 = later at hran ⊢
      rw [hfinished] at hran
      cases hran with
      | completed hall => exact ⟨p, _, hread, hall, rfl⟩

end Session

end GradualScript
