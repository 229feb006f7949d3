import GradualScript.Proofs.Grammar.Lookahead
import GradualScript.Proofs.Grammar.ParsedExpression
import GradualScript.Proofs.Grammar.Targets

/-!
# Completed expressions

Where a production wants another token than the one in front of it, the tokens that it took
begin something that it reads: each pending production is completed with a few tokens of its
own, the innermost first. The one exception is an assignment to an expression that is no bare
name, which is only refused when its value has been read.
-/
namespace GradualScript

namespace Grammar

/-- A token to complete others with. -/
def filler (kind : TokenKind) : Token := ⟨kind, "", .start⟩

theorem filler_kind (kind : TokenKind) : (filler kind).kind = kind := rfl

/-- Such tokens, of one kind after the other. -/
def fill (kinds : List TokenKind) : List Token := kinds.map filler

@[simp] theorem fill_nil : fill [] = [] := rfl

@[simp] theorem fill_cons (kind : TokenKind) (kinds : List TokenKind) :
    fill (kind :: kinds) = filler kind :: fill kinds := rfl

theorem fill_append (kinds more : List TokenKind) :
    fill (kinds ++ more) = fill kinds ++ fill more :=
  List.map_append

/-- The grammar sees tokens of these kinds. -/
def Seen (kinds : List TokenKind) : Prop := ∀ kind ∈ kinds, kind ≠ .endOfFile ∧ kind ≠ .comment

instance (kinds : List TokenKind) : Decidable (Seen kinds) :=
  inferInstanceAs (Decidable (∀ kind ∈ kinds, _))

/-- The tokens can be completed to some that are in `G`, unless they misassign. -/
def Viable (G : List Token → Prop) (ts : List Token) : Prop :=
  Misassigns ts ∨ ∃ kinds, Seen kinds ∧ G (ts ++ fill kinds)

/-- The tokens of an expression. -/
def Derives (tier : Tier) (ts : List Token) : Prop := ∃ e, IsExpr tier ts e

end Grammar

namespace Parser

open Grammar

variable {α β : Type} {G H : List Token → Prop} {before : List Token} {s : Stream}

/-- If a parser fails for want of another token, after it took some of the stream, then the
tokens before and those that it took are the beginning of some in `G`. -/
def Completable (G : List Token → Prop) (before : List Token) (s : Stream)
    (reply : Reply Stream α) :
    Prop :=
  ∀ e, reply = .failed e → e.cause.found? ≠ none →
    ∃ ts rest, s = Stream.prepend rest ts ∧ rest.current.position = e.position ∧
      Viable G (before ++ ts)

theorem completable_done (a : α) (rest : Stream) : Completable G before s (.done a rest) :=
  fun _ h => nomatch h

/-- A parser that is done wants nothing. -/
theorem completable_pure (a : α) : Completable G before s ((pure a : Parser Stream α) s) :=
  completable_done a s

theorem completable_spent : Completable G before s (.spent : Reply Stream α) := fun _ h => nomatch h

/-- A failure whose cause names no token that was found needs no completion. -/
theorem completable_fail {cause : ParseFault} {position : Position} (h : cause.found? = none) :
    Completable G before s ((fail cause position : Parser Stream α) s) := by
  intro e he hfound
  cases he
  exact absurd h hfound

/-- A failure at the token at the front. -/
theorem completable_here {cause : ParseFault} (h : Viable G before) :
    Completable G before s ((fail cause s.current.position : Parser Stream α) s) := by
  intro e he _
  cases he
  exact ⟨[], s, rfl, rfl, by rwa [List.append_nil]⟩

/-- A later part that fails has the tokens of the earlier ones before it. -/
theorem Completable.bind {p : Parser Stream α} {f : α → Parser Stream β}
    (h : Completable G before s (p s)) (hf : ∀ a rest, p s = .done a rest →
      ∃ ts, s = rest.prepend ts ∧ Completable G (before ++ ts) rest (f a rest)) :
    Completable G before s ((p >>= f) s) := by
  change Completable G before s (Parser.bind p f s)
  unfold Parser.bind
  cases hp : p s with
  | spent => exact completable_spent
  | failed e =>
    intro e' he'
    cases he'
    exact h e hp
  | done a mid =>
    obtain ⟨ts, rfl, hmid⟩ := hf a mid hp
    intro e he hfound
    obtain ⟨us, rest, rfl, hposition, hviable⟩ := hmid e he hfound
    exact ⟨ts ++ us, rest, by simp, hposition, by rwa [← List.append_assoc]⟩

/-- The parser is done with tokens that `P` relates to its result. -/
theorem Completable.reads {p : Parser Stream α} {f : α → Parser Stream β}
    {P : List Token → α → Prop} (h : Completable G before s (p s)) (hreads : Reads p P)
    (hf : ∀ a rest ts, P ts a → Completable G (before ++ ts) rest (f a rest)) :
    Completable G before s ((p >>= f) s) := by
  refine h.bind fun a rest hdone => ?_
  obtain ⟨ts, hs, hts⟩ := hreads hdone
  exact ⟨ts, hs, hf a rest ts hts⟩

/-- An expected token can be put where it is missing. -/
theorem Completable.expect {kind : TokenKind} {f : Token → Parser Stream β} (hk : kind ≠ .endOfFile)
    (h : Viable G before)
    (hf : ∀ t rest, t.kind = kind → Completable G (before ++ [t]) rest (f t rest)) :
    Completable G before s ((Parser.expect kind >>= f) s) := by
  refine .bind ?_ fun t rest hdone => ?_
  · unfold Parser.expect
    split
    · exact completable_done _ _
    · exact completable_here h
  · obtain ⟨hkind, rfl, rfl⟩ := expect_eq_done.mp hdone
    exact ⟨_, front hkind hk, hf _ _ hkind⟩

theorem Completable.current {f : Token → Parser Stream β}
    (h : Completable G before s (f s.current s)) :
    Completable G before s ((Parser.current >>= f) s) := h

theorem Completable.skip {f : Unit → Parser Stream β} (hk : s.current.kind ≠ .endOfFile)
    (hf : Completable G (before ++ [s.current]) s.next (f () s.next)) :
    Completable G before s ((Parser.skip >>= f) s) := by
  refine .bind (completable_done _ _) fun u rest hdone => ?_
  obtain rfl := skip_eq_done.mp hdone
  exact ⟨_, front rfl hk, hf⟩

theorem Completable.accept {kind : TokenKind} {p q : Parser Stream β} (hk : kind ≠ .endOfFile)
    (hp : s.current.kind = kind → Completable G (before ++ [s.current]) s.next (p s.next))
    (hq : Completable G before s (q s)) :
    Completable G before s ((do if ← Parser.accept kind then p else q) s) := by
  refine .bind ?_ fun b rest hdone => ?_
  · unfold Parser.accept
    split
    · exact completable_done _ _
    · exact completable_done _ _
  · obtain ⟨rfl, hkind, rfl⟩ | ⟨rfl, -, rfl⟩ := accept_eq_done.mp hdone
    · exact ⟨_, front hkind hk, hp hkind⟩
    · exact ⟨[], rfl, by rwa [List.append_nil]⟩

theorem Completable.sees {kind : TokenKind} {p q : Parser Stream β}
    (hp : Completable G before s (p s)) (hq : Completable G before s (q s)) :
    Completable G before s ((do if ← Parser.sees kind then p else q) s) := by
  refine .bind (completable_done _ _) fun b rest hdone => ?_
  obtain ⟨-, rfl⟩ := sees_eq_done.mp hdone
  refine ⟨[], rfl, ?_⟩
  rw [List.append_nil]
  cases b with
  | true => exact hp
  | false => exact hq

theorem Completable.takeOperator {operator? : TokenKind → Option Operator}
    {f : Option Operator → Parser Stream β} (hend : operator? .endOfFile = none)
    (hsome : ∀ op t rest, operator? t.kind = some op →
      Completable G (before ++ [t]) rest (f (some op) rest))
    (hnone : Completable G before s (f none s)) :
    Completable G before s ((Parser.takeOperator operator? >>= f) s) := by
  refine .bind ?_ fun op rest hdone => ?_
  · unfold Parser.takeOperator
    split
    · exact completable_done _ _
    · exact completable_done _ _
  · obtain ⟨op, rfl, hop, rfl⟩ | ⟨rfl, -, rfl⟩ := takeOperator_eq_done.mp hdone
    · have hk : s.current.kind ≠ .endOfFile := by
        intro hk
        rw [hk, hend] at hop
        cases hop
      exact ⟨_, front rfl hk, hsome op _ _ hop⟩
    · exact ⟨[], rfl, by rwa [List.append_nil]⟩

/-- What is completed on its own is completed inside something else. -/
theorem Completable.within {reply : Reply Stream α} (h : Completable G [] s reply)
    (kinds : List TokenKind)
    (hkinds : Seen kinds) (hG : ∀ ts, G ts → H (before ++ (ts ++ fill kinds))) :
    Completable H before s reply := by
  intro e he hfound
  obtain ⟨ts, rest, hs, hposition, hviable⟩ := h e he hfound
  refine ⟨ts, rest, hs, hposition, hviable.imp (fun h => h.append_left before) ?_⟩
  rintro ⟨more, hmore, hts⟩
  refine ⟨more ++ kinds, List.forall_mem_append.mpr ⟨hmore, hkinds⟩, ?_⟩
  simpa [fill_append] using hG _ hts

/-- After a wrong target nothing has to be completed. -/
theorem Completable.of_misassigns {reply : Reply Stream α} (h : Completable G [] s reply)
    (hbefore : Misassigns before) : Completable H before s reply := by
  intro e he hfound
  obtain ⟨ts, rest, hs, hposition, -⟩ := h e he hfound
  exact ⟨ts, rest, hs, hposition, .inl (hbefore.append_right ts)⟩

theorem Completable.imp {reply : Reply Stream α} (h : Completable G [] s reply)
    (hG : ∀ ts, G ts → H ts) :
    Completable H [] s reply :=
  h.within [] (by decide) fun ts hts => by simpa using hG ts hts

theorem viable_of {ts : List Token} (kinds : List TokenKind) (hkinds : Seen kinds)
    (h : G (ts ++ fill kinds)) : Viable G ts := .inr ⟨kinds, hkinds, h⟩

/-- Arguments and the parenthesis after them. -/
def IsArgumentsClosed (ts : List Token) : Prop :=
  ∃ us closing es, ts = us ++ [closing] ∧ closing.kind = .rightParen ∧ es.length ≤ maxArity ∧
    IsArguments us es

/-- Arguments that may follow `count` others. -/
def IsArgumentList (count : Nat) (ts : List Token) : Prop :=
  ∃ es, es ≠ [] ∧ count + es.length ≤ maxArity ∧ IsArguments ts es

theorem IsArgumentList.closed {ts : List Token} {closing : Token} (h : IsArgumentList 0 ts)
    (hclosing : closing.kind = .rightParen) : IsArgumentsClosed (ts ++ [closing]) := by
  obtain ⟨es, -, hlength, hes⟩ := h
  exact ⟨ts, closing, es, rfl, hclosing, by omega, hes⟩

theorem IsArgumentList.single {count : Nat} {ts : List Token} {e : Expr} (hcount : count < maxArity)
    (h : IsExpr .assignment ts e) : IsArgumentList count ts :=
  ⟨[e], nofun, hcount, [(ts, e)], by simpa using h, .single ts, rfl⟩

theorem IsArgumentList.cons {count : Nat} {ts us : List Token} {comma : Token} {e : Expr}
    (h : IsExpr .assignment ts e) (hcomma : comma.kind = .comma)
    (hus : IsArgumentList (count + 1) us) :
    IsArgumentList count (ts ++ comma :: us) := by
  obtain ⟨es, hne, hlength, args, hall, hsep, rfl⟩ := hus
  obtain ⟨next, args, rfl⟩ := List.exists_cons_of_ne_nil (by simpa using hne : args ≠ [])
  refine ⟨e :: (next :: args).map Prod.snd, nofun, ?_, (ts, e) :: next :: args,
    List.forall_mem_cons.mpr ⟨h, hall⟩, .cons hcomma hsep, rfl⟩
  rw [List.length_cons]
  omega

theorem completable_literal : Completable (Derives .primary) [] s (literal s.current s) := by
  have hskip : ∀ e : Expr, s.current.kind ≠ .endOfFile →
      Completable (Derives .primary) [] s ((do skip; return e : Parser Stream Expr) s) :=
    fun e hk => .skip hk (completable_pure e)
  fun_cases literal (σ := Stream) s.current with
  | case1 mark hk | case3 mark hk | case4 mark hk | case5 mark hk | case6 mark hk | case7 mark hk =>
    exact hskip _ (by rw [hk]; decide)
  | case2 => exact completable_fail rfl
  | case8 => exact completable_here (viable_of [.nilWord] (by decide) ⟨_, .literal (.nilWord rfl)⟩)

/-- The productions of expressions complete what they read, with `n` steps. -/
structure CompletesExpr (n : Nat) : Prop where
  expression : ∀ s, Completable (Derives .assignment) [] s (expression n s)
  binary : ∀ level ≤ Operator.levels, ∀ s,
    Completable (Derives (.binary level)) [] s (binary n level s)
  binaryRest : ∀ level ls left, IsExpr (.binary level) ls left → ∀ s,
    Completable (Derives (.binary level)) ls s (binaryRest n level left s)
  unary : ∀ s, Completable (Derives .unary) [] s (unary n s)
  call : ∀ s, Completable (Derives .call) [] s (call n s)
  callRest : ∀ fs f, IsExpr .call fs f → ∀ s, Completable (Derives .call) fs s (callRest n f s)
  arguments : ∀ s, Completable IsArgumentsClosed [] s (arguments n s)
  argumentList : ∀ count s, Completable (IsArgumentList count) [] s (argumentList n count s)
  primary : ∀ s, Completable (Derives .primary) [] s (primary n s)

namespace CompletesExpr

variable {n : Nat} (ih : CompletesExpr n) (s : Stream)
include ih

theorem completable_expression :
    Completable (Derives .assignment) [] s (Parser.expression (n + 1) s) := by
  have htarget : Completable (Derives .assignment) [] s (Parser.binary n 0 s) :=
    (ih.binary 0 (Nat.zero_le _) s).imp fun _ => Exists.imp fun _ => .value
  refine htarget.reads ((readsExpr n).binary 0 (Nat.zero_le _)) fun target s₁ ts hts => ?_
  refine .accept (by decide) (fun heq => ?_) (completable_pure target)
  have hvalue : Completable (Derives .assignment) ([] ++ ts ++ [s₁.current]) s₁.next
      (Parser.expression n s₁.next) := by
    by_cases hname : ∃ m name, target = .name m name
    · obtain ⟨m, name, rfl⟩ := hname
      obtain ⟨t, rfl, ht, -, -⟩ := hts.of_name rfl
      exact (ih.expression _).within [] (by decide) fun us ⟨e, he⟩ =>
        ⟨_, by simpa using IsExpr.assign ht heq he⟩
    · refine (ih.expression _).of_misassigns ⟨[], ts, s₁.current, [], target, by simp, heq, hts, ?_⟩
      exact fun m name h => hname ⟨m, name, h⟩
  refine hvalue.reads (readsExpr n).expression fun value s₂ us _ => ?_
  cases target with
  | name => exact completable_pure _
  | _ => exact completable_fail rfl

theorem completable_binary (level : Nat) (hlevel : level ≤ Operator.levels) :
    Completable (Derives (.binary level)) [] s (Parser.binary (n + 1) level s) := by
  unfold Parser.binary
  split
  · next hlt =>
    have hleft : Completable (Derives (.binary level)) [] s (Parser.binary n (level + 1) s) :=
      (ih.binary (level + 1) hlt s).imp fun _ => Exists.imp fun _ => .tighter hlt
    exact hleft.reads ((readsExpr n).binary (level + 1) hlt) fun left s₁ ls hls =>
      ih.binaryRest level ls left (.tighter hlt hls) s₁
  · next hge =>
    obtain rfl : level = operandLevel := by rw [operandLevel_eq]; omega
    exact (ih.unary s).imp fun _ => Exists.imp fun _ => .operand

/-- The operators read so far are part of what is completed. -/
theorem completable_binaryRest (level : Nat) (ls : List Token) (left : Expr)
    (hls : IsExpr (.binary level) ls left) :
    Completable (Derives (.binary level)) ls s (Parser.binaryRest (n + 1) level left s) := by
  refine .takeOperator rfl (fun op sign s₁ hop => ?_) (completable_pure left)
  rw [binaryOperator?_eq_some_iff] at hop
  have hright : Completable (Derives (.binary level)) (ls ++ [sign]) s₁
      (Parser.binary n (level + 1) s₁) :=
    (ih.binary (level + 1) hop.lt s₁).within [] (by decide) fun ts ⟨e, he⟩ =>
      ⟨_, by simpa using IsExpr.binary hop hls he⟩
  refine hright.reads ((readsExpr n).binary (level + 1) hop.lt) fun right s₂ rs hrs => ?_
  have hnode := IsExpr.binary hop hls hrs
  rw [hls.markOf_append] at hnode
  simpa using ih.binaryRest level _ _ hnode s₂

theorem completable_unary : Completable (Derives .unary) [] s (Parser.unary (n + 1) s) := by
  refine .current (.takeOperator rfl (fun op sign s₁ hop => ?_) ?_)
  · rw [unaryOperator?_eq_some_iff] at hop
    have hoperand : Completable (Derives .unary) [sign] s₁ (Parser.unary n s₁) :=
      (ih.unary s₁).within [] (by decide) fun ts ⟨e, he⟩ => ⟨_, by simpa using IsExpr.unary hop he⟩
    exact hoperand.reads (readsExpr n).unary fun operand s₂ ts _ => completable_pure _
  · exact (ih.call s).imp fun _ => Exists.imp fun _ => .callee

theorem completable_call : Completable (Derives .call) [] s (Parser.call (n + 1) s) := by
  have hcallee : Completable (Derives .call) [] s (Parser.primary n s) :=
    (ih.primary s).imp fun _ => Exists.imp fun _ => .atom
  exact hcallee.reads (readsExpr n).primary fun callee s₁ fs hfs =>
    ih.callRest fs callee (.atom hfs) s₁

theorem completable_callRest (fs : List Token) (f : Expr) (hf : IsExpr .call fs f) :
    Completable (Derives .call) fs s (Parser.callRest (n + 1) f s) := by
  refine .accept (by decide) (fun hopening => ?_) (completable_pure f)
  have hargs : Completable (Derives .call) (fs ++ [s.current]) s.next
      (Parser.arguments n s.next) := by
    refine (ih.arguments _).within [] (by decide) fun ts hts => ?_
    obtain ⟨us, closing, es, rfl, hclosing, hlength, args, hall, hsep, rfl⟩ := hts
    exact ⟨_, by simpa using IsExpr.call hf hopening hclosing hall (by simpa using hlength) hsep⟩
  refine hargs.reads (readsExpr n).arguments fun es s₁ ts hts => ?_
  obtain ⟨hlength, us, closing, rfl, hclosing, args, hall, hsep, rfl⟩ := hts
  have hnode := IsExpr.call hf hopening hclosing hall (by simpa using hlength) hsep
  rw [hf.markOf_append] at hnode
  simpa using ih.callRest _ _ hnode s₁

theorem completable_arguments :
    Completable IsArgumentsClosed [] s (Parser.arguments (n + 1) s) := by
  refine .accept (by decide) (fun _ => completable_pure []) ?_
  have hargs : Completable IsArgumentsClosed [] s (Parser.argumentList n 0 s) :=
    (ih.argumentList 0 s).within [.rightParen] (by decide) fun ts hts => hts.closed rfl
  refine hargs.reads ((readsExpr n).argumentList 0) fun args s₁ ts hts => ?_
  refine .expect (by decide) (viable_of [.rightParen] (by decide) ?_)
    fun _ _ _ => completable_pure args
  exact IsArgumentList.closed ⟨args, hts⟩ rfl

theorem completable_argumentList (count : Nat) :
    Completable (IsArgumentList count) [] s (Parser.argumentList (n + 1) count s) := by
  unfold Parser.argumentList
  split
  · exact .current (completable_fail rfl)
  next hcount =>
  have harg : Completable (IsArgumentList count) [] s (Parser.expression n s) :=
    (ih.expression s).imp fun _ hts => hts.elim fun _ => .single (Nat.lt_of_not_le hcount)
  refine harg.reads (readsExpr n).expression fun arg s₁ ts hts => ?_
  refine .accept (by decide) (fun hcomma => ?_) (completable_pure [arg])
  have hmore : Completable (IsArgumentList count) ([] ++ ts ++ [s₁.current]) s₁.next
      (Parser.argumentList n (count + 1) s₁.next) :=
    (ih.argumentList (count + 1) _).within [] (by decide) fun us hus => by
      simpa using IsArgumentList.cons hts hcomma hus
  exact hmore.reads ((readsExpr n).argumentList (count + 1)) fun more _ _ _ =>
    completable_pure (arg :: more)

theorem completable_primary : Completable (Derives .primary) [] s (Parser.primary (n + 1) s) := by
  refine .current ?_
  split
  · next hk =>
    refine .skip (by rw [hk]; decide) ?_
    have hinner : Completable (Derives .primary) [s.current] s.next (Parser.expression n s.next) :=
      (ih.expression _).within [.rightParen] (by decide) fun ts ⟨e, he⟩ =>
        ⟨_, .grouping hk rfl he⟩
    refine hinner.reads (readsExpr n).expression fun inner s₁ ts hts => ?_
    refine .expect (by decide) (viable_of [.rightParen] (by decide) ?_)
      fun _ _ _ => completable_pure _
    exact ⟨_, by simpa using IsExpr.grouping hk rfl hts⟩
  · exact completable_literal

end CompletesExpr

/-- By induction on the budget. -/
theorem completesExpr (n : Nat) : CompletesExpr n := by
  induction n with
  | zero => constructor <;> intros <;> exact completable_spent
  | succ n ih =>
    exact ⟨ih.completable_expression, fun level hlevel s => ih.completable_binary s level hlevel,
      fun level ls left hls s => ih.completable_binaryRest s level ls left hls,
      ih.completable_unary, ih.completable_call, fun fs f hf s => ih.completable_callRest s fs f hf,
      ih.completable_arguments, fun count s => ih.completable_argumentList s count,
      ih.completable_primary⟩

end Parser

end GradualScript
