import GradualScript.Proofs.Evaluation.Steps

/-!
# Runs inside runs

Running a program runs its parts, each from the machine that the parts before it
left. A `Run` is one such part with its budget and its machine; `Starts` relates it to
the runs that it starts itself, and `Reaches` to all runs inside it. Calls are runs
too, so the body of a function is inside the run that calls it.
-/
namespace GradualScript

/-- What the evaluator is asked to run. -/
inductive Task where
  | eval (e : Expr)
  | evalAll (es : List Expr)
  | call (callee : Value) (args : List Value) (position : Position)
  | exec (s : Stmt)
  | execAll (ss : List Stmt)
  | rounds (cond : Option Expr) (body : Stmt) (increment : Option Expr)

structure Run where
  budget : Nat
  task : Task
  machine : Machine

/-- The runs that a run starts itself, in the order in which it starts them. -/
inductive Run.Starts (limit : Option Nat) : Run → Run → Prop
  | operand {n : Nat} {m : Machine} {k : Mark} {op : Operator} {e : Expr} :
      Starts limit ⟨n + 1, .eval (.unary k op e), m⟩ ⟨n, .eval e, m⟩
  | left {n : Nat} {m : Machine} {k : Mark} {op : Operator} {l r : Expr} :
      Starts limit ⟨n + 1, .eval (.binary k op l r), m⟩ ⟨n, .eval l, m⟩
  | right {n : Nat} {m mid : Machine} {k : Mark} {op : Operator} {l r : Expr} {v : Value} :
      l.eval limit n m = (.finished v, mid) → op.needsRight v = true →
      Starts limit ⟨n + 1, .eval (.binary k op l r), m⟩ ⟨n, .eval r, mid⟩
  | inner {n : Nat} {m : Machine} {k : Mark} {e : Expr} :
      Starts limit ⟨n + 1, .eval (.grouping k e), m⟩ ⟨n, .eval e, m⟩
  | assigned {n : Nat} {m : Machine} {k : Mark} {name : String} {e : Expr} :
      Starts limit ⟨n + 1, .eval (.assign k name e), m⟩ ⟨n, .eval e, m⟩
  | callee {n : Nat} {m : Machine} {k : Mark} {f : Expr} {args : List Expr} :
      Starts limit ⟨n + 1, .eval (.call k f args), m⟩ ⟨n, .eval f, m⟩
  | arguments {n : Nat} {m mid : Machine} {k : Mark} {f : Expr} {args : List Expr} {v : Value} :
      f.eval limit n m = (.finished v, mid) →
      Starts limit ⟨n + 1, .eval (.call k f args), m⟩ ⟨n, .evalAll args, mid⟩
  | call {n : Nat} {m mid last : Machine} {k : Mark} {f : Expr} {args : List Expr} {v : Value}
      {vs : List Value} :
      f.eval limit n m = (.finished v, mid) →
      Expr.evalAll limit n args mid = (.finished vs, last) →
      Starts limit ⟨n + 1, .eval (.call k f args), m⟩ ⟨n, .call v vs k.position, last⟩
  | firstArgument {n : Nat} {m : Machine} {e : Expr} {es : List Expr} :
      Starts limit ⟨n + 1, .evalAll (e :: es), m⟩ ⟨n, .eval e, m⟩
  | moreArguments {n : Nat} {m mid : Machine} {e : Expr} {es : List Expr} {v : Value} :
      e.eval limit n m = (.finished v, mid) →
      Starts limit ⟨n + 1, .evalAll (e :: es), m⟩ ⟨n, .evalAll es, mid⟩
  | body {n : Nat} {m : Machine} {f : Function} {args : List Value} {position : Position} :
      args.length = f.arity → limitReached? limit m.calls = none →
      Starts limit ⟨n + 1, .call (.function f) args position, m⟩
        ⟨n, .execAll f.body, m.enter f args⟩
  | expression {n : Nat} {m : Machine} {p : Position} {e : Expr} :
      Starts limit ⟨n + 1, .exec (.expression p e), m⟩ ⟨n, .eval e, m⟩
  | print {n : Nat} {m : Machine} {p : Position} {e : Expr} :
      Starts limit ⟨n + 1, .exec (.print p e), m⟩ ⟨n, .eval e, m⟩
  | init {n : Nat} {m : Machine} {p : Position} {name : String} {e : Expr} :
      Starts limit ⟨n + 1, .exec (.var p name e), m⟩ ⟨n, .eval e, m⟩
  | block {n : Nat} {m : Machine} {p : Position} {ss : List Stmt} :
      Starts limit ⟨n + 1, .exec (.block p ss), m⟩ ⟨n, .execAll ss, m.opened "block"⟩
  | cond {n : Nat} {m : Machine} {p : Position} {c : Expr} {yes : Stmt} {no : Option Stmt} :
      Starts limit ⟨n + 1, .exec (.ifElse p c yes no), m⟩ ⟨n, .eval c, m⟩
  | yes {n : Nat} {m mid : Machine} {p : Position} {c : Expr} {yes : Stmt} {no : Option Stmt}
      {v : Value} :
      c.eval limit n m = (.finished v, mid) → v.isTruthy = true →
      Starts limit ⟨n + 1, .exec (.ifElse p c yes no), m⟩ ⟨n, .exec yes, mid⟩
  | no {n : Nat} {m mid : Machine} {p : Position} {c : Expr} {yes no : Stmt} {v : Value} :
      c.eval limit n m = (.finished v, mid) → v.isTruthy = false →
      Starts limit ⟨n + 1, .exec (.ifElse p c yes (some no)), m⟩ ⟨n, .exec no, mid⟩
  | whileLoop {n : Nat} {m : Machine} {p : Position} {c : Expr} {body : Stmt} :
      Starts limit ⟨n + 1, .exec (.whileLoop p c body), m⟩ ⟨n, .rounds (some c) body none, m⟩
  | begin {n : Nat} {m : Machine} {p : Position} {init : Stmt} {c increment : Option Expr}
      {body : Stmt} :
      Starts limit ⟨n + 1, .exec (.forLoop p (some init) c increment body), m⟩
        ⟨n, .exec init, m.opened "for"⟩
  | forLoop {n : Nat} {m mid : Machine} {p : Position} {init : Option Stmt}
      {c increment : Option Expr} {body : Stmt} :
      Stmt.begin limit n init (m.opened "for") = (.finished .normal, mid) →
      Starts limit ⟨n + 1, .exec (.forLoop p init c increment body), m⟩
        ⟨n, .rounds c body increment, mid⟩
  | returned {n : Nat} {m : Machine} {p : Position} {e : Expr} :
      Starts limit ⟨n + 1, .exec (.ret p (some e)), m⟩ ⟨n, .eval e, m⟩
  | first {n : Nat} {m : Machine} {s : Stmt} {ss : List Stmt} :
      Starts limit ⟨n + 1, .execAll (s :: ss), m⟩ ⟨n, .exec s, m⟩
  | rest {n : Nat} {m mid : Machine} {s : Stmt} {ss : List Stmt} :
      s.exec limit n m = (.finished .normal, mid) →
      Starts limit ⟨n + 1, .execAll (s :: ss), m⟩ ⟨n, .execAll ss, mid⟩
  | test {n : Nat} {m : Machine} {c : Expr} {body : Stmt} {increment : Option Expr} :
      Starts limit ⟨n + 1, .rounds (some c) body increment, m⟩ ⟨n, .eval c, m⟩
  | round {n : Nat} {m mid : Machine} {c increment : Option Expr} {body : Stmt} :
      Stmt.test limit n c m = (.finished true, mid) →
      Starts limit ⟨n + 1, .rounds c body increment, m⟩ ⟨n, .exec body, mid⟩
  | advance {n : Nat} {m mid last : Machine} {c : Option Expr} {increment : Expr} {body : Stmt} :
      Stmt.test limit n c m = (.finished true, mid) →
      body.exec limit n mid = (.finished .normal, last) →
      Starts limit ⟨n + 1, .rounds c body (some increment), m⟩ ⟨n, .eval increment, last⟩
  | again {n : Nat} {m mid mid' last : Machine} {c increment : Option Expr} {body : Stmt} :
      Stmt.test limit n c m = (.finished true, mid) →
      body.exec limit n mid = (.finished .normal, mid') →
      Stmt.advance limit n increment mid' = (.finished (), last) →
      Starts limit ⟨n + 1, .rounds c body increment, m⟩ ⟨n, .rounds c body increment, last⟩

/-- All runs inside a run, itself included. -/
inductive Run.Reaches (limit : Option Nat) : Run → Run → Prop
  | refl (r : Run) : Reaches limit r r
  | step {r mid last : Run} : Run.Starts limit r mid → Reaches limit mid last →
      Reaches limit r last

theorem Run.Reaches.invariant {limit : Option Nat} {P : Run → Prop} {r last : Run}
    (hstep : ∀ {r r'}, P r → Run.Starts limit r r' → P r') (h : Run.Reaches limit r last)
    (hr : P r) : P last := by
  induction h with
  | refl => exact hr
  | step hstart _ ih => exact ih (hstep hr hstart)

end GradualScript
