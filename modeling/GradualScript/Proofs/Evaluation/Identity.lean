import GradualScript.Proofs.Evaluation.Origins

/-!
# Identity of functions

What a trace holds was made in it, and the identities of what it made increase. So functions
are equal exactly when one run of a declaration made them, and what a declaration makes is
unequal to all functions that there have been before.
-/
namespace GradualScript

/-- The event at a place of a trace makes the function. -/
def MadeAt (limit : Option Nat) (τ : List Event) (i : Nat) (f : Function) : Prop :=
  ∃ event, τ[i]? = some event ∧ event.made limit = some f

/-- The function is held at a place of a trace. -/
def HeldAt (limit : Option Nat) (τ : List Event) (i : Nat) (f : Function) : Prop :=
  ∃ event, τ[i]? = some event ∧ event.Holds limit f

section

variable {limit : Option Nat} {before : List Function} {τ : List Event} {i j : Nat} {f g : Function}

theorem Accounts.at (h : Accounts limit before τ) {event : Event} (hevent : τ[i]? = some event) :
    event.Accounted limit (before ++ madeIn limit (τ.take i)) := by
  induction h generalizing i with
  | nil => cases hevent
  | @cons before first τ hfirst _ ih =>
    cases i with
    | zero =>
      cases hevent
      rwa [List.take_zero, madeIn_nil, List.append_nil]
    | succ i =>
      rw [List.take_succ_cons, madeIn_cons, ← List.append_assoc]
      exact ih hevent

theorem madeIn_take_succ (hf : MadeAt limit τ i f) :
    madeIn limit (τ.take (i + 1)) = madeIn limit (τ.take i) ++ [f] := by
  obtain ⟨event, hevent, hmade⟩ := hf
  rw [List.take_add_one, hevent, madeIn_append, Option.toList_some, madeIn_cons, hmade]
  rfl

/-- What was made before a place was made at a place before. -/
theorem exists_madeAt (hf : f ∈ madeIn limit (τ.take i)) : ∃ j < i, MadeAt limit τ j f := by
  obtain ⟨event, hevent, hmade⟩ := List.mem_flatMap.mp hf
  obtain ⟨j, hj⟩ := List.mem_iff_getElem?.mp hevent
  rw [List.getElem?_take] at hj
  split at hj
  · next hlt => exact ⟨j, hlt, event, hj, Option.mem_toList.mp hmade⟩
  · cases hj

theorem Accounts.origin (h : Accounts limit [] τ) (hf : HeldAt limit τ i f) :
    ∃ j ≤ i, MadeAt limit τ j f := by
  obtain ⟨event, hevent, hholds⟩ := hf
  rcases List.mem_append.mp ((h.at hevent).held f hholds) with hbefore | hnow
  · obtain ⟨j, hlt, hmade⟩ := exists_madeAt hbefore
    exact ⟨j, hlt.le, hmade⟩
  · exact ⟨i, le_rfl, event, hevent, Option.mem_toList.mp hnow⟩

theorem Accounts.identity_eq (h : Accounts limit [] τ) (hf : MadeAt limit τ i f) :
    f.identity = (madeIn limit (τ.take i)).length := by
  obtain ⟨event, hevent, hmade⟩ := hf
  exact (h.at hevent).identity f hmade

/-- Identities increase. -/
theorem Accounts.identity_lt (h : Accounts limit [] τ) (hf : MadeAt limit τ i f)
    (hg : MadeAt limit τ j g) (hlt : i < j) : f.identity < g.identity := by
  obtain ⟨k, rfl⟩ := Nat.exists_eq_add_of_le (Nat.succ_le_of_lt hlt)
  rw [h.identity_eq hf, h.identity_eq hg, List.take_add, madeIn_append, madeIn_take_succ hf]
  simp

theorem Accounts.same_eq (h : Accounts limit [] τ) (hf : MadeAt limit τ i f)
    (hg : MadeAt limit τ j g) : (Value.function f).same (.function g) = decide (i = j) := by
  rw [Value.same]
  rcases Nat.lt_trichotomy i j with hlt | rfl | hlt
  · have hidentity := h.identity_lt hf hg hlt
    rw [decide_eq_false hidentity.ne, decide_eq_false hlt.ne]
  · rw [h.identity_eq hf, h.identity_eq hg, decide_eq_true rfl, decide_eq_true rfl]
  · have hidentity := h.identity_lt hg hf hlt
    rw [decide_eq_false hidentity.ne', decide_eq_false hlt.ne']

end

/-- Functions of a trace are told apart by the declarations that made them.

* What is held at some moment was made then or earlier.
* Each run of a declaration makes a function.
* Two functions are equal exactly when they were made at the same moment.
* What is made is unequal to everything held before.
* The operators `==` and `!=` on functions tell whether they were made at the same moment. -/
structure Identifies (limit : Option Nat) (τ : List Event) : Prop where
  origin : ∀ {i f}, HeldAt limit τ i f → ∃ j ≤ i, MadeAt limit τ j f
  makes : ∀ {i event}, τ[i]? = some event → event.Declares → ∃ f, MadeAt limit τ i f
  same_iff : ∀ {i j f g}, MadeAt limit τ i f → MadeAt limit τ j g →
    ((Value.function f).same (.function g) = true ↔ i = j)
  fresh : ∀ {i j f g}, HeldAt limit τ i f → MadeAt limit τ j g → i < j →
    (Value.function g).same (.function f) = false
  equal : ∀ {n m mid last k l r f g}, Event.begins ⟨n + 1, .eval (.binary k .equal l r), m⟩ ∈ τ →
    l.eval limit n m = (.finished (.function f), mid) →
    r.eval limit n mid = (.finished (.function g), last) →
    ∃ i j, MadeAt limit τ i f ∧ MadeAt limit τ j g ∧
      (Expr.binary k .equal l r).eval limit (n + 1) m =
        (.finished (.boolean (decide (i = j))), last)
  notEqual : ∀ {n m mid last k l r f g},
    Event.begins ⟨n + 1, .eval (.binary k .notEqual l r), m⟩ ∈ τ →
    l.eval limit n m = (.finished (.function f), mid) →
    r.eval limit n mid = (.finished (.function g), last) →
    ∃ i j, MadeAt limit τ i f ∧ MadeAt limit τ j g ∧
      (Expr.binary k .notEqual l r).eval limit (n + 1) m =
        (.finished (.boolean (!decide (i = j))), last)

section

variable {limit : Option Nat} {n i j : Nat} {m mid last : Machine} {k : Mark} {l r : Expr}
  {f g : Function} {rs : List Run}

/-- The result of an evaluation inside some runs is held at its end. -/
theorem heldAt_of_eval {e : Expr} {v : Run}
    (hinside : Event.begins v ∈ Run.traces limit rs)
    (hstart : Run.Starts limit v ⟨n, .eval e, m⟩)
    (he : e.eval limit n m = (.finished (.function f), mid)) :
    ∃ i, HeldAt limit (Run.traces limit rs) i f := by
  obtain ⟨root, hroot, hbegins⟩ := Run.mem_traces.mp hinside
  have hreaches : Run.Reaches limit v ⟨n, .eval e, m⟩ := .step hstart (.refl _)
  have hends := (Run.begins_mem_trace_iff.mp hbegins).subset
    (hreaches.subset (Run.ends_mem_trace limit _))
  obtain ⟨i, hi⟩ := List.mem_iff_getElem?.mp (Run.mem_traces.mpr ⟨root, hroot, hends⟩)
  refine ⟨i, _, hi, .inr ⟨[.function f], ?_, List.mem_singleton_self _⟩⟩
  rw [Run.perform, Task.perform, map_outcome, he]
  rfl

/-- The operands of an operator that needs both were made at some moments, and are the same
if these are. -/
theorem Accounts.operands (h : Accounts limit [] (Run.traces limit rs)) {op : Operator}
    (hbegins : Event.begins ⟨n + 1, .eval (.binary k op l r), m⟩ ∈ Run.traces limit rs)
    (hneeds : op.needsRight (.function f) = true)
    (hl : l.eval limit n m = (.finished (.function f), mid))
    (hr : r.eval limit n mid = (.finished (.function g), last)) :
    ∃ i j, MadeAt limit (Run.traces limit rs) i f ∧
      MadeAt limit (Run.traces limit rs) j g ∧
      (Value.function f).same (.function g) = decide (i = j) ∧
      (Expr.binary k op l r).eval limit (n + 1) m =
        Eval.ofExcept k.position (op.applyBinary (.function f) (.function g)) last := by
  obtain ⟨_, hleft⟩ := heldAt_of_eval hbegins .left hl
  obtain ⟨_, hright⟩ := heldAt_of_eval hbegins (.right hl hneeds) hr
  obtain ⟨i, -, hi⟩ := h.origin hleft
  obtain ⟨j, -, hj⟩ := h.origin hright
  refine ⟨i, j, hi, hj, h.same_eq hi hj, ?_⟩
  rw [eval_binary_right hl hneeds, Eval.bind_finished hr]

theorem Accounts.identifies (h : Accounts limit [] (Run.traces limit rs)) :
    Identifies limit (Run.traces limit rs) where
  origin := h.origin
  makes hevent hdeclares := by
    obtain ⟨f, hf⟩ := Option.isSome_iff_exists.mp ((h.at hevent).made hdeclares)
    exact ⟨f, _, hevent, hf⟩
  same_iff hf hg := by rw [h.same_eq hf hg, decide_eq_true_iff]
  fresh := by
    intro i j f g hf hg hlt
    obtain ⟨origin, hle, hmade⟩ := h.origin hf
    rw [h.same_eq hg hmade, decide_eq_false (by omega)]
  equal hbegins hl hr := by
    obtain ⟨i, j, hi, hj, hsame, heval⟩ := h.operands hbegins rfl hl hr
    refine ⟨i, j, hi, hj, ?_⟩
    rw [heval, Operator.applyBinary, hsame]
    rfl
  notEqual hbegins hl hr := by
    obtain ⟨i, j, hi, hj, hsame, heval⟩ := h.operands hbegins rfl hl hr
    refine ⟨i, j, hi, hj, ?_⟩
    rw [heval, Operator.applyBinary, hsame]
    rfl

end

end GradualScript
