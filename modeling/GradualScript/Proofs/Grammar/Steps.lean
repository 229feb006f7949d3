import GradualScript.Proofs.Grammar

/-!
# Steps of a parser

A stream is what the grammar sees of a list of tokens, all at once: comments are left
out, and the end is a place. Here is what it means for one step of a parser to be done on
a stream, and what is then left of it. `prepend` puts tokens back in front of a stream: a
parser that is done has read a list of tokens, and its input is its rest with those tokens
prepended.
-/
namespace GradualScript

/-- The tokens that the grammar sees, and the position to report for an end. -/
structure Stream where
  tokens : List Token
  /-- Where the stream ends. -/
  stop : Position

namespace Stream

/-- The position of the first end-of-file token, or of the last token of all. -/
def stopOf (tokens : List Token) : Position :=
  match tokens.find? (·.kind = .endOfFile) with
  | some token => token.position
  | none => (tokens.getLast?.map Token.position).getD .start

/-- The stream of a list of tokens. -/
def ofTokens (tokens : List Token) : Stream :=
  ⟨Grammar.significant tokens, stopOf tokens⟩

/-- Tokens are left out and none added. -/
theorem length_ofTokens_le (tokens : List Token) :
    (ofTokens tokens).tokens.length ≤ tokens.length :=
  Nat.le_trans (List.length_filter_le _ _) (List.takeWhile_prefix _).length_le

/-- A budget of steps that suffices for the stream. -/
def budget (s : Stream) : Nat := 16 * (s.tokens.length + 1)

/-- The first token; at the end, the end-of-file token. -/
def current (s : Stream) : Token := s.tokens.head?.getD (.endAt s.stop)

/-- The stream after its first token. -/
def next (s : Stream) : Stream := ⟨s.tokens.tail, s.stop⟩

instance : Feed Stream := ⟨current, current, next, fun _ => rfl⟩

/-- The program that the tokens of the stream denote. -/
def parse (s : Stream) : Except ParseError Program :=
  match Parser.program s.budget s with
  | .done program _ => .ok program
  | .failed e => .error e
  | .spent => .error ⟨.missingTerminal .endOfFile, s.stop⟩

/-- The stream with tokens put before it. -/
def prepend (s : Stream) (ts : List Token) : Stream := ⟨ts ++ s.tokens, s.stop⟩

@[simp] theorem prepend_nil (s : Stream) : s.prepend [] = s := rfl

/-- Two lists put in front are one list put in front, the later one first. -/
@[simp] theorem prepend_prepend (s : Stream) (ts us : List Token) :
    (s.prepend us).prepend ts = s.prepend (ts ++ us) := by simp [prepend]

@[simp] theorem current_prepend_cons (s : Stream) (t : Token) (ts : List Token) :
    (s.prepend (t :: ts)).current = t := rfl

@[simp] theorem next_prepend_cons (s : Stream) (t : Token) (ts : List Token) :
    (s.prepend (t :: ts)).next = s.prepend ts := rfl

/-- A stream that shows a token other than the end starts with it. -/
theorem eq_prepend_current {s : Stream} (h : s.current.kind ≠ .endOfFile) :
    s = s.next.prepend [s.current] := by
  obtain ⟨ts, stop⟩ := s
  cases ts with
  | nil => exact absurd rfl h
  | cons t ts => rfl

end Stream

namespace Parser

variable {α β : Type} {s rest : Stream}

/-- A sequence is done where its first part is, on what that part leaves. -/
theorem bind_eq_done {p : Parser Stream α} {f : α → Parser Stream β} {b : β} :
    (p >>= f) s = .done b rest ↔ ∃ a mid, p s = .done a mid ∧ f a mid = .done b rest := by
  change Parser.bind p f s = _ ↔ _
  unfold Parser.bind
  cases p s with
  | done a mid =>
    constructor
    · intro h
      exact ⟨a, mid, rfl, h⟩
    · rintro ⟨_, _, h, hf⟩
      cases h
      exact hf
  | failed e => simp
  | spent => simp

/-- A parser that takes nothing leaves the stream as it is. -/
theorem pure_eq_done {a b : α} : (pure a : Parser Stream α) s = .done b rest ↔ a = b ∧ s = rest := by
  change Reply.done a s = _ ↔ _
  rw [Reply.done.injEq]

section

variable (kind : TokenKind) (s : Stream)

theorem skip_eq : Parser.skip s = .done () s.next := rfl

theorem sees_eq : Parser.sees kind s = .done (decide (s.current.kind = kind)) s := rfl

theorem accept_eq :
    Parser.accept kind s =
      if s.current.kind = kind then .done true s.next else .done false s := rfl

/-- A token that has to be there is taken, or the one that stands there is reported. -/
theorem expect_eq :
    Parser.expect kind s =
      if s.current.kind = kind then .done s.current s.next
      else .failed ⟨.unexpectedToken kind s.current.kind, s.current.position⟩ := rfl

/-- An operator is taken only if the table of its place knows it. -/
theorem takeOperator_eq (operator? : TokenKind → Option Operator) :
    takeOperator operator? s =
      match operator? s.current.kind with
      | some op => .done (some op) s.next
      | none => .done none s := rfl

end

theorem current_done : Parser.current s = .done s.current s := rfl

/-- To look at the first token does not take it. -/
theorem current_eq_done {t : Token} :
    Parser.current s = .done t rest ↔ s.current = t ∧ s = rest := by
  rw [current_done, Reply.done.injEq]

theorem skip_eq_done {u : Unit} : Parser.skip s = .done u rest ↔ s.next = rest := by
  simp [skip_eq]

theorem sees_eq_done {kind : TokenKind} {b : Bool} :
    Parser.sees kind s = .done b rest ↔ decide (s.current.kind = kind) = b ∧ s = rest := by
  rw [sees_eq, Reply.done.injEq]

/-- A token is taken if it is of the kind asked for; any other stays. -/
theorem accept_eq_done {kind : TokenKind} {b : Bool} :
    Parser.accept kind s = .done b rest ↔
      b = true ∧ s.current.kind = kind ∧ s.next = rest ∨
        b = false ∧ s.current.kind ≠ kind ∧ s = rest := by
  rw [accept_eq]
  split <;> cases b <;> simp_all

/-- Where a token was expected and found, it was the first. -/
theorem expect_eq_done {kind : TokenKind} {t : Token} :
    Parser.expect kind s = .done t rest ↔
      s.current.kind = kind ∧ s.current = t ∧ s.next = rest := by
  rw [expect_eq]
  split <;> simp_all

/-- Either an operator of the table stood in front and was taken, or none did and nothing
happened. -/
theorem takeOperator_eq_done {operator? : TokenKind → Option Operator} {op? : Option Operator} :
    takeOperator operator? s = .done op? rest ↔
      (∃ op, op? = some op ∧ operator? s.current.kind = some op ∧ s.next = rest) ∨
        op? = none ∧ operator? s.current.kind = none ∧ s = rest := by
  rw [takeOperator_eq]
  split <;> cases op? <;> simp_all

/-- A part that is known to be done can be run out of a sequence. -/
theorem bind_done {p : Parser Stream α} {f : α → Parser Stream β} {a : α} {mid : Stream}
    (h : p s = .done a mid) : (p >>= f) s = f a mid := by
  change Parser.bind p f s = _
  rw [Parser.bind, h]

theorem accept_not_done {kind : TokenKind} (h : s.current.kind ≠ kind) :
    Parser.accept kind s = .done false s := if_neg h

theorem accept_not_prepend {kind : TokenKind} {t : Token} {ts : List Token} (h : t.kind ≠ kind) :
    Parser.accept kind (s.prepend (t :: ts)) = .done false (s.prepend (t :: ts)) :=
  accept_not_done h

/-- A token of the kind asked for, put in front, is taken again. -/
theorem accept_prepend {kind : TokenKind} {t : Token} {ts : List Token} (h : t.kind = kind) :
    Parser.accept kind (s.prepend (t :: ts)) = .done true (s.prepend ts) :=
  if_pos h

/-- A token of the kind that is expected, put in front, is taken and returned. -/
theorem expect_prepend {kind : TokenKind} {t : Token} {ts : List Token} (h : t.kind = kind) :
    Parser.expect kind (s.prepend (t :: ts)) = .done t (s.prepend ts) :=
  if_pos h

theorem sees_prepend {kind : TokenKind} {t : Token} {ts : List Token} (h : t.kind = kind) :
    Parser.sees kind (s.prepend (t :: ts)) = .done true (s.prepend (t :: ts)) := by
  rw [sees_eq, Stream.current_prepend_cons, decide_eq_true h]

/-- Looking for another kind of token leaves the one in front where it is. -/
theorem not_sees_prepend {kind : TokenKind} {t : Token} {ts : List Token} (h : t.kind ≠ kind) :
    Parser.sees kind (s.prepend (t :: ts)) = .done false (s.prepend (t :: ts)) := by
  rw [sees_eq, Stream.current_prepend_cons, decide_eq_false h]

/-- An operator put in front is taken again. -/
theorem takeOperator_prepend {operator? : TokenKind → Option Operator} {op : Operator}
    {t : Token} {ts : List Token} (h : operator? t.kind = some op) :
    takeOperator operator? (s.prepend (t :: ts)) = .done (some op) (s.prepend ts) := by
  rw [takeOperator_eq, Stream.current_prepend_cons, h]
  rfl

theorem takeOperator_not_done {operator? : TokenKind → Option Operator}
    (h : operator? s.current.kind = none) : takeOperator operator? s = .done none s := by
  rw [takeOperator_eq, h]

/-- A failure is never taken for a result. -/
theorem fail_ne_done {cause : ParseFault} {p : Position} {a : α} :
    (Parser.fail cause p : Parser Stream α) s ≠ .done a rest := by simp [Parser.fail]

theorem spent_ne_done {a : α} : (Parser.spent : Parser Stream α) s ≠ .done a rest := by
  simp [Parser.spent]

end Parser

end GradualScript
