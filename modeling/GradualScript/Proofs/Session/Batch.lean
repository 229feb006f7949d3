import GradualScript.Proofs.Evaluation.Budgets
import GradualScript.Proofs.Evaluation.Moved
import GradualScript.Proofs.Grammar.Exact
import GradualScript.Proofs.Grammar.Moved
import GradualScript.Proofs.Session.Commits

/-!
# Batch and incremental running agree

Two inputs one after the other leave what one input of both, with a newline between them,
leaves. A whole text that is run at once ends as it does as the first input of a session.
-/
namespace GradualScript

open Scanner Grammar

/-- A text is read to a program exactly if it is tiled by tokens that derive the program,
comments apart. -/
theorem readProgram_ok_iff {source : String} {p : Program} :
    readProgram source = .ok p ↔ ∃ body, Tiles [] source.toList body [] ∧
      IsProgram (body.filter (·.kind ≠ .comment)) p := by
  have hsignificant : ∀ {body : List Token}, Tiles [] source.toList body [] → ∀ stop,
      significant (body.filter (·.kind ≠ .comment) ++ [.endAt stop]) =
        body.filter (·.kind ≠ .comment) := by
    intro body htiles stop
    refine significant_scanned fun t ht => ?_
    obtain ⟨hmem, hkind⟩ := List.mem_filter.mp ht
    exact ⟨(htiles.isToken t hmem).ne_endOfFile, of_decide_eq_true hkind⟩
  constructor
  · intro h
    unfold readProgram at h
    split at h
    · cases h
    · next tokens hscan =>
      obtain ⟨body, htiles, rfl⟩ := scan_ok_iff.mp hscan
      cases hparse : parse (body.filter (·.kind ≠ .comment) ++ [.endAt (.following source.toList)]) with
      | error e =>
        rw [hparse] at h
        cases h
      | ok q =>
        rw [hparse] at h
        cases h
        have hprogram := isProgram_of_parse hparse
        rw [hsignificant htiles _] at hprogram
        exact ⟨body, htiles, hprogram⟩
  · rintro ⟨body, htiles, hprogram⟩
    rw [← hsignificant htiles (.following source.toList)] at hprogram
    rw [readProgram, scan_ok_iff.mpr ⟨body, htiles, rfl⟩]
    simp only [parse_of_isProgram hprogram]
    rfl

/-- The program of two texts with a newline between them is that of the first and then
that of the second, further down. -/
theorem readProgram_join {first second : String} {p q : Program}
    (hfirst : readProgram first = .ok p) (hsecond : readProgram second = .ok q) :
    readProgram (first ++ "\n" ++ second) = .ok
      (p ++ Stmt.movedAll (Position.below (first.toList.count '\n' + 1)) q) := by
  obtain ⟨before, htiles, hp⟩ := readProgram_ok_iff.mp hfirst
  obtain ⟨after, htiles', hq⟩ := readProgram_ok_iff.mp hsecond
  have hjoined := htiles.join htiles'
  have htext : (first ++ "\n" ++ second).toList = first.toList ++ '\n' :: second.toList := by simp
  rw [← htext] at hjoined
  refine readProgram_ok_iff.mpr ⟨_, hjoined, ?_⟩
  rw [List.filter_append, List.filter_map]
  exact hp.append (hq.moved _)

/-- Both are the same value, or functions of the same declaration whose bodies have the
same shape. -/
def Value.Alike : Value → Value → Prop
  | function f, function g => f.identity = g.identity ∧ f.name = g.name ∧ f.params = g.params ∧
      f.closure = g.closure ∧ Stmt.sameShapes f.body g.body = true
  | v, w => v = w

/-- Machines that differ in the places and recorded types of function bodies only. -/
def Machine.Alike (m m' : Machine) : Prop :=
  m.moved (fun _ => .start) = m'.moved (fun _ => .start)

theorem Value.alike_of_moved {v w : Value}
    (h : v.moved (fun _ => .start) = w.moved (fun _ => .start)) : v.Alike w := by
  cases v with
  | function f =>
    cases w with
    | function f' =>
      simp only [moved, Function.moved, function.injEq, Function.mk.injEq,
        Stmt.movedAll_start] at h
      obtain ⟨hidentity, hname, hparams, hbody, hclosure⟩ := h
      exact ⟨hidentity, hname, hparams, hclosure, (Stmt.sameShapes_iff_eraseAll _ _).mpr hbody⟩
    | _ => cases h
  | _ =>
    cases w with
    | function f' => cases h
    | _ => exact h

namespace Machine

variable {m m' : Machine}

theorem Alike.refl (m : Machine) : m.Alike m := rfl

theorem Alike.sink_eq (h : m.Alike m') : m.sink = m'.sink := by
  have hsink := congrArg Machine.sink (show m.moved _ = m'.moved _ from h)
  exact hsink

theorem Alike.get (h : m.Alike m') (name : String) :
    Option.Rel Value.Alike (m.scopes.get name) (m'.scopes.get name) := by
  have hget := congrArg (fun m : Machine => m.scopes.get name) h
  simp only [moved, Scopes.get_map] at hget
  cases hm : m.scopes.get name with
  | none =>
    cases hm' : m'.scopes.get name with
    | none => exact .none
    | some w => simp [hm, hm'] at hget
  | some v =>
    cases hm' : m'.scopes.get name with
    | none => simp [hm, hm'] at hget
    | some w =>
      rw [hm, hm'] at hget
      exact .some (Value.alike_of_moved (Option.some.inj hget))

end Machine

/-- Statements of the same shape run alike on machines that are alike. -/
theorem Machine.Alike.exec {m m' : Machine} (h : m.Alike m') {s s' : Stmt}
    (hs : s.erase = s'.erase) {limit : Option Nat} {n : Nat} {last : Machine}
    (hrun : s.exec limit n m = (.finished .normal, last)) :
    ∃ last', s'.exec limit n m' = (.finished .normal, last') ∧ last.Alike last' := by
  have hleft := (mirrored (fun _ => .start) limit n).exec s m
  have hright := (mirrored (fun _ => .start) limit n).exec s' m'
  rw [Stmt.moved_start] at hleft hright
  rw [← h, ← hs, hleft, hrun] at hright
  obtain ⟨houtcome, hlast⟩ := Prod.mk.inj hright
  refine ⟨_, Prod.ext ?_ rfl, hlast⟩
  generalize (s'.exec limit n m').1 = outcome at houtcome
  cases outcome with
  | finished c =>
    cases c with
    | normal => rfl
    | returned v => cases houtcome
  | failed e => cases houtcome
  | unfinished => cases houtcome

namespace Completes

variable {limit : Option Nat} {n k : Nat} {m mid last : Machine} {ss rest : List Stmt}

theorem append (h : Completes limit n m ss mid) (h' : Completes limit n mid rest last) :
    Completes limit n m (ss ++ rest) last := by
  induction h with
  | nil => exact h'
  | cons hs _ ih => exact .cons hs (ih h')

theorem of_append (h : Completes limit n m (ss ++ rest) last) :
    ∃ mid, Completes limit n m ss mid ∧ Completes limit n mid rest last := by
  induction ss generalizing m with
  | nil => exact ⟨m, .nil m, h⟩
  | cons s ss ih =>
    cases h with
    | cons hs hss =>
      obtain ⟨mid, hdone, hrest⟩ := ih hss
      exact ⟨mid, .cons hs hdone, hrest⟩

theorem mono (h : Completes limit n m ss last) (hk : n ≤ k) : Completes limit k m ss last := by
  induction h with
  | nil m => exact .nil m
  | cons hs _ ih => exact .cons (Stmt.exec_mono hs hk) ih

/-- The budget does not matter to what is left. -/
theorem unique {last' : Machine} (h : Completes limit n m ss last)
    (h' : Completes limit k m ss last') : last = last' := by
  induction h with
  | nil m =>
    cases h'
    rfl
  | @cons m mid last s ss hs _ ih =>
    cases h' with
    | cons hs' hss' =>
      obtain ⟨-, rfl⟩ := Eval.finished_unique (fun hle => (suffices_of_le limit hle).exec s) hs hs'
      exact ih hss'

/-- Statements of the same shapes complete alike. -/
theorem alike {m' : Machine} {ss' : List Stmt} (h : Completes limit n m ss last)
    (hm : m.Alike m') (hss : Stmt.eraseAll ss = Stmt.eraseAll ss') :
    ∃ last', Completes limit n m' ss' last' ∧ last.Alike last' := by
  induction h generalizing m' ss' with
  | nil m =>
    cases ss' with
    | nil => exact ⟨m', .nil m', hm⟩
    | cons => cases hss
  | cons hs _ ih =>
    cases ss' with
    | nil => cases hss
    | cons s' ss' =>
      obtain ⟨hshape, hshapes⟩ := List.cons.inj hss
      obtain ⟨mid', hs', hmid⟩ := hm.exec hshape hs
      obtain ⟨last', hss', hlast⟩ := ih hmid hshapes
      exact ⟨last', .cons hs' hss', hlast⟩

/-- What completes leaves the rest of a list to run. -/
theorem execAll (h : Completes limit n m ss mid) (hk : n ≤ k) (rest : List Stmt) :
    Stmt.execAll limit (k + ss.length) (ss ++ rest) m = Stmt.execAll limit k rest mid := by
  induction h with
  | nil m => rfl
  | @cons m mid last s ss hs _ ih =>
    have hle : n ≤ k + ss.length := by omega
    rw [List.length_cons, ← Nat.add_assoc, List.cons_append, execAll_cons,
      Eval.bind_finished (Stmt.exec_mono hs hle)]
    exact ih

/-- Where a statement does not end after those before it, the whole list does not. -/
theorem execAll_unfinished {s : Stmt} (h : Completes limit n m ss mid)
    (hstop : s.exec limit n mid = (.unfinished, last)) (rest : List Stmt) :
    (Stmt.execAll limit n (ss ++ s :: rest) m).1 = .unfinished := by
  by_contra hends
  have hmore := (suffices_of_le limit (Nat.le_add_right n ss.length)).execAll _ m hends
  rw [← hmore, h.execAll (Nat.le_refl n)] at hends
  cases n with
  | zero => exact hends rfl
  | succ n =>
    rw [execAll_cons] at hends
    have hfirst : (s.exec limit n mid).1 ≠ .unfinished := fun h => hends (Eval.bind_unfinished h)
    have hsame := (suffices_of_le limit (Nat.le_succ n)).exec s mid hfirst
    rw [← hsame, hstop] at hfirst
    exact hfirst rfl

end Completes

namespace Session

variable {n k : Nat} {session mid later : Session} {source : String} {p q : Program}

theorem runAll_of_completes {ss : List Stmt} {last : Machine}
    (h : Completes session.limit n session.machine ss last)
    (hcheck : (Program.check ss session.types).verdict = .ok ()) :
    runAll n session ss =
      (.finished (), ⟨(Program.check ss session.types).env, last, session.limit⟩) := by
  induction ss generalizing session with
  | nil =>
    cases h
    rfl
  | cons s ss ih =>
    cases h with
    | @cons _ mid _ _ _ hs hss =>
      have hone : (Program.check [s] session.types).verdict = .ok () :=
        Program.check_ok_of_append (q := ss) hcheck
      obtain ⟨henv, hverdict⟩ := Program.check_append hone ss
      rw [runAll, hs]
      simp only [hone]
      rw [ih hss (hverdict.symm.trans hcheck), ← henv]
      rfl

/-- An input succeeds exactly if its program passes and completes. -/
theorem run_finished_iff (hread : readProgram source = .ok p) :
    session.run n source = (.finished (), later) ↔
      (p.check session.types).verdict = .ok () ∧ ∃ last,
        Completes session.limit n session.machine p last ∧
          later = ⟨(p.check session.types).env, last, session.limit⟩ := by
  constructor
  · intro h
    rcases session.run_cases n source with ⟨e, -, hrefused⟩ | ⟨p', hread', hcheck, hran⟩
    · rw [hrefused] at h
      cases h
    · obtain rfl : p' = p := Except.ok.inj (hread'.symm.trans hread)
      rw [h] at hran
      cases hran with
      | completed hall => exact ⟨hcheck, _, hall, rfl⟩
  · rintro ⟨hcheck, last, hall, rfl⟩
    rw [run, hread]
    simp only [hcheck]
    exact runAll_of_completes hall hcheck

/-- With some budget, running the input ends so. -/
def Ends (session : Session) (source : String) (outcome : Outcome Error Unit) (later : Session) :
    Prop :=
  outcome ≠ .unfinished ∧ ∃ budget, session.run budget source = (outcome, later)

theorem ends_finished_iff (hread : readProgram source = .ok p) :
    session.Ends source (.finished ()) later ↔
      (p.check session.types).verdict = .ok () ∧ ∃ n last,
        Completes session.limit n session.machine p last ∧
          later = ⟨(p.check session.types).env, last, session.limit⟩ := by
  constructor
  · rintro ⟨-, n, hrun⟩
    obtain ⟨hcheck, last, hall, hlater⟩ := (run_finished_iff hread).mp hrun
    exact ⟨hcheck, n, last, hall, hlater⟩
  · rintro ⟨hcheck, n, last, hall, hlater⟩
    exact ⟨nofun, n, (run_finished_iff hread).mpr ⟨hcheck, last, hall, hlater⟩⟩

/-- A program further down passes exactly after the same programs, and leaves the same. -/
theorem check_join (g : Position → Position) (types : TypeEnv) :
    (Program.check (p ++ Stmt.movedAll g q) types).verdict = .ok () ↔
      (p.check types).verdict = .ok () ∧ (q.check (p.check types).env).verdict = .ok () := by
  have hmoved := Program.check_moved_ok_iff (g := g) q (p.check types).env
  constructor
  · intro h
    have hp := Program.check_ok_of_append h
    rw [(Program.check_append hp _).2] at h
    exact ⟨hp, hmoved.mp h⟩
  · rintro ⟨hp, hq⟩
    rw [(Program.check_append hp _).2]
    exact hmoved.mpr hq

/-- Two inputs that succeed one after the other succeed as one, which leaves the same. -/
theorem Ends.join {first second : String} (hfirst : readProgram first = .ok p)
    (hsecond : readProgram second = .ok q) (h : session.Ends first (.finished ()) mid)
    (h' : mid.Ends second (.finished ()) later) :
    ∃ joined, session.Ends (first ++ "\n" ++ second) (.finished ()) joined ∧
      later.machine.Alike joined.machine := by
  obtain ⟨hcheck, n, m, hp, rfl⟩ := (ends_finished_iff hfirst).mp h
  obtain ⟨hcheck', k, last, hq, rfl⟩ := (ends_finished_iff hsecond).mp h'
  have hshapes := (Stmt.eraseAll_moved (Position.below (first.toList.count '\n' + 1)) q).symm
  obtain ⟨last', hq', hlast⟩ := hq.alike (.refl m) hshapes
  have hboth := (hp.mono (Nat.le_max_left n k)).append (hq'.mono (Nat.le_max_right n k))
  refine ⟨_, (ends_finished_iff (readProgram_join hfirst hsecond)).mpr
    ⟨(check_join _ _).mpr ⟨hcheck, hcheck'⟩, _, last', hboth, rfl⟩, hlast⟩

/-- An input that is made of two succeeds only if they do. -/
theorem Ends.split {first second : String} {joined : Session} (hfirst : readProgram first = .ok p)
    (hsecond : readProgram second = .ok q)
    (h : session.Ends (first ++ "\n" ++ second) (.finished ()) joined) :
    ∃ mid later, session.Ends first (.finished ()) mid ∧ mid.Ends second (.finished ()) later := by
  obtain ⟨hcheck, n, last, hall, -⟩ :=
    (ends_finished_iff (readProgram_join hfirst hsecond)).mp h
  obtain ⟨hp, hq⟩ := (check_join _ _).mp hcheck
  obtain ⟨m, hdone, hrest⟩ := hall.of_append
  obtain ⟨last', hrest', -⟩ := hrest.alike (.refl m) (Stmt.eraseAll_moved _ q)
  exact ⟨_, _, (ends_finished_iff hfirst).mpr ⟨hp, n, m, hdone, rfl⟩,
    (ends_finished_iff hsecond).mpr ⟨hq, n, last', hrest', rfl⟩⟩

theorem Ends.unique {later' : Session} (hread : readProgram source = .ok p)
    (h : session.Ends source (.finished ()) later)
    (h' : session.Ends source (.finished ()) later') :
    later = later' := by
  obtain ⟨-, n, last, hall, rfl⟩ := (ends_finished_iff hread).mp h
  obtain ⟨-, k, last', hall', rfl⟩ := (ends_finished_iff hread).mp h'
  rw [hall.unique hall']

theorem execute_approximates {limit : Option Nat} (hk : n ≤ k) (ss : Program) :
    Eval.Approximates (ss.execute limit n) (ss.execute limit k) :=
  ((suffices_of_le limit hk).execAll ss).bind fun _ => .refl _

/-- Statements that ran one by one to an end run to it all at once. -/
theorem Ran.execute {ss : List Stmt} {outcome : Outcome Error Unit}
    (h : Ran n session ss outcome later) (hends : outcome ≠ .unfinished) :
    ∃ k result, n ≤ k ∧
      Program.execute session.limit k ss session.machine = (result, later.machine) ∧
      outcome = result.mapError .run := by
  cases h with
  | @completed last hall =>
    refine ⟨n + 1 + ss.length, .finished (), by omega, ?_, rfl⟩
    have hrun := hall.execAll (Nat.le_succ n) []
    rw [List.append_nil] at hrun
    exact Eval.bind_finished hrun
  | @failed done rest s mid last e heq hdone hfail =>
    subst heq
    refine ⟨n + 1 + done.length, .failed e, by omega, ?_, rfl⟩
    have hrun := hdone.execAll (Nat.le_succ n) (s :: rest)
    rw [execAll_cons, Eval.bind_fails hfail] at hrun
    exact Eval.bind_fails hrun
  | interrupted => exact absurd rfl hends

/-- What runs all at once to an end runs to it one by one. -/
theorem Ran.of_execute {ss : List Stmt} {outcome : Outcome Error Unit}
    {result : Outcome RuntimeError Unit} {last : Machine} (h : Ran n session ss outcome later)
    (hrun : Program.execute session.limit n ss session.machine = (result, last))
    (hends : result ≠ .unfinished) : outcome = result.mapError .run ∧ later.machine = last := by
  have hall : (Stmt.execAll session.limit n ss session.machine).1 ≠ .unfinished := fun hstop =>
    hends ((congrArg Prod.fst hrun).symm.trans (Eval.bind_unfinished hstop))
  by_cases hstops : outcome = .unfinished
  · subst hstops
    cases h with
    | @interrupted done rest s mid last heq hdone hstop =>
      subst heq
      exact absurd (hdone.execAll_unfinished hstop rest) hall
  · obtain ⟨k, result', hk, hrun', rfl⟩ := h.execute hstops
    have hsame := execute_approximates hk ss session.machine (by rw [hrun]; exact hends)
    rw [hrun, hrun'] at hsame
    obtain ⟨rfl, rfl⟩ := Prod.mk.inj hsame
    exact ⟨rfl, rfl⟩

/-- A whole text run at once, in fresh environments, is the first input of a session. -/
theorem runSource_iff_ends {sink printed : Sink} {outcome : Outcome Error Unit}
    (hends : outcome ≠ .unfinished) :
    (∃ budget, runSource budget source sink = (outcome, printed)) ↔
      ∃ later, (fresh sink (some defaultCallLimit)).Ends source outcome later ∧
        later.machine.sink = printed := by
  have hrefused (e : Error) (hsource : ∀ n, runSource n source sink = (.failed e, sink))
      (hrun : ∀ n, (fresh sink (some defaultCallLimit)).run n source =
        (.failed e, fresh sink (some defaultCallLimit))) :
      (∃ budget, runSource budget source sink = (outcome, printed)) ↔
        ∃ later, (fresh sink (some defaultCallLimit)).Ends source outcome later ∧
          later.machine.sink = printed := by
    constructor
    · rintro ⟨n, h⟩
      rw [hsource n] at h
      cases h
      exact ⟨_, ⟨hends, n, hrun n⟩, rfl⟩
    · rintro ⟨later, ⟨-, n, h⟩, rfl⟩
      rw [hrun n] at h
      cases h
      exact ⟨n, hsource n⟩
  cases hread : readProgram source with
  | error e =>
    refine hrefused e (fun n => ?_) (fun n => ?_)
    · rw [runSource, hread]
    · rw [run, hread]
  | ok p =>
    cases hcheck : (p.check .fresh).verdict with
    | error e =>
      have hcheck' : (p.check (fresh sink (some defaultCallLimit)).types).verdict = .error e := hcheck
      refine hrefused (.check e) (fun n => ?_) (fun n => ?_)
      · simp only [runSource, hread, hcheck]
      · simp only [run, hread, hcheck']
    | ok passed =>
      have hcheck' : (p.check (fresh sink (some defaultCallLimit)).types).verdict = .ok passed := hcheck
      have hran (n : Nat) : Ran n (fresh sink (some defaultCallLimit)) p
          (runAll n (fresh sink (some defaultCallLimit)) p).1
          (runAll n (fresh sink (some defaultCallLimit)) p).2 :=
        ran_runAll (placedIn_of_readProgram hread) hcheck'
      simp only [runSource, Ends, run, hread, hcheck, hcheck']
      constructor
      · rintro ⟨n, h⟩
        cases hexecute : Program.execute (some defaultCallLimit) n p (.fresh globalScope sink) with
        | mk result last =>
          rw [hexecute] at h
          cases h
          have hresult : result ≠ .unfinished := by
            rintro rfl
            exact hends rfl
          obtain ⟨houtcome, hlast⟩ := (hran n).of_execute hexecute hresult
          exact ⟨_, ⟨hends, n, Prod.ext houtcome rfl⟩, congrArg Machine.sink hlast⟩
      · rintro ⟨later, ⟨-, n, h⟩, rfl⟩
        have hran' := hran n
        rw [h] at hran'
        obtain ⟨k, result, -, hexecute, rfl⟩ := hran'.execute hends
        refine ⟨k, ?_⟩
        simp only [fresh] at hexecute
        rw [hexecute]

/-- Two inputs one after the other, or both as one with a newline between them: either way
both succeed or not, and if they do then the same has been printed and all globals are
alike. And running a whole text at once ends as running it as the first input of a session
does, with the same error if there is one, and prints the same. -/
theorem batch_incremental :
    (∀ (session : Session) (first second : String) (p q : Program),
      readProgram first = .ok p → readProgram second = .ok q →
      ((∃ mid later, session.Ends first (.finished ()) mid ∧ mid.Ends second (.finished ()) later) ↔
        ∃ joined, session.Ends (first ++ "\n" ++ second) (.finished ()) joined) ∧
      ∀ mid later joined, session.Ends first (.finished ()) mid →
        mid.Ends second (.finished ()) later →
        session.Ends (first ++ "\n" ++ second) (.finished ()) joined →
        later.machine.sink = joined.machine.sink ∧
          ∀ name, Option.Rel Value.Alike (later.global name) (joined.global name)) ∧
    ∀ (source : String) (sink printed : Sink) (outcome : Outcome Error Unit),
      outcome ≠ .unfinished →
      ((∃ budget, runSource budget source sink = (outcome, printed)) ↔
        ∃ later, (fresh sink (some defaultCallLimit)).Ends source outcome later ∧
          later.machine.sink = printed) := by
  refine ⟨fun session first second p q hfirst hsecond => ⟨⟨?_, ?_⟩, ?_⟩, ?_⟩
  · rintro ⟨mid, later, h, h'⟩
    obtain ⟨joined, hjoined, -⟩ := h.join hfirst hsecond h'
    exact ⟨joined, hjoined⟩
  · rintro ⟨joined, h⟩
    exact h.split hfirst hsecond
  · intro mid later joined h h' hjoined
    obtain ⟨joined', hjoined', halike⟩ := h.join hfirst hsecond h'
    obtain rfl := hjoined.unique (readProgram_join hfirst hsecond) hjoined'
    exact ⟨halike.sink_eq, halike.get⟩
  · intro source sink printed outcome hends
    exact runSource_iff_ends hends

/-- The first input ends in a comment and declares what the second calls. -/
theorem batch_incremental_commented :
    let first := "fun f() \x7b return true; \x7d // done"
    let second := "print f();"
    let session := fresh (.buffer "") (some defaultCallLimit)
    ∃ p q mid later joined, readProgram first = .ok p ∧ readProgram second = .ok q ∧
      session.Ends first (.finished ()) mid ∧ mid.Ends second (.finished ()) later ∧
      session.Ends (first ++ "\n" ++ second) (.finished ()) joined ∧
      later.machine.sink = .buffer "true\n" ∧ later.machine.sink = joined.machine.sink ∧
      (∀ name, Option.Rel Value.Alike (later.global name) (joined.global name)) ∧
      ∃ budget, runSource budget first (.buffer "") = (.finished (), .buffer "") := by
  intro first second session
  have hfirst : readProgram first = .ok [.function ⟨1, 1⟩ "f" []
      [.ret ⟨1, 11⟩ (some (.boolean (.unchecked ⟨1, 18⟩) true))] .any] := by cbv
  have hsecond : readProgram second = .ok [.print ⟨1, 1⟩
      (.call (.unchecked ⟨1, 7⟩) (.name (.unchecked ⟨1, 7⟩) "f") [])] := by cbv
  have hran : (session.run 9 first).1 = .finished () := by cbv
  have hran' : ((session.run 9 first).2.run 9 second).1 = .finished () := by cbv
  have hprinted : ((session.run 9 first).2.run 9 second).2.machine.sink = .buffer "true\n" := by cbv
  have hends : (.finished () : Outcome Error Unit) ≠ .unfinished := fun h => by cases h
  have hmid : session.Ends first (.finished ()) (session.run 9 first).2 :=
    ⟨hends, 9, Prod.ext hran rfl⟩
  have hlater : (session.run 9 first).2.Ends second (.finished ())
      ((session.run 9 first).2.run 9 second).2 := ⟨hends, 9, Prod.ext hran' rfl⟩
  have hsilent : (session.run 9 first).2.machine.sink = .buffer "" := by cbv
  obtain ⟨hiff, hsame⟩ := batch_incremental.1 session first second _ _ hfirst hsecond
  obtain ⟨joined, hjoined⟩ := hiff.mp ⟨_, _, hmid, hlater⟩
  obtain ⟨hsink, hglobals⟩ := hsame _ _ joined hmid hlater hjoined
  exact ⟨_, _, _, _, joined, hfirst, hsecond, hmid, hlater, hjoined, hprinted, hsink, hglobals,
    (batch_incremental.2 first (.buffer "") (.buffer "") (.finished ()) hends).mpr
      ⟨_, hmid, hsilent⟩⟩

end Session

end GradualScript
