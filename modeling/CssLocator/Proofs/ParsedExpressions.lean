import CssLocator.Proofs.PhraseRules

/-!
# Parsing accepts the grammar

Tokens that the grammar forms are read as their tree, by induction on how they are formed. With the
converse, the parser accepts exactly the lists of tokens that the grammar forms.
-/

namespace CssLocator.XPath

open Reader

variable {e e' : Expr} {ts us : List Token}

/-- As what the tokens of a symbol are read. -/
def Symbol.Reads : (s : Symbol) → List Token → s.Tree → Prop
  | expr .or, ts, e => Chained 5 e ts
  | expr .and, ts, e => Chained 4 e ts
  | expr .equality, ts, e => Chained 3 e ts
  | expr .relation, ts, e => Chained 2 e ts
  | expr .sum, ts, e => Chained 1 e ts
  | expr .product, ts, e => Chained 0 e ts
  | expr .unary, ts, e => Phrase 0 e ts
  | expr .union, ts, e => UnionPhrase e ts
  | expr .path, ts, e => PathPhrase e ts
  | expr .location, ts, e => PathPhrase e ts
  | expr .primary, ts, e => FilterPhrase e ts
  | relativePath, ts, steps => StepsPhrase steps ts
  | step, ts, s => StepPhrase s ts
  | predicates, ts, ps => PredicatesPhrase ps ts
  | arguments, ts, es => ArgumentsPhrase es ts

theorem Rule.Joins.operand {r r' : Rule} {os : List Operator} (hr : r.Joins os r')
    (h : Symbol.Reads (.expr r') ts e) : Symbol.Reads (.expr r) ts e := by
  cases hr with
  | or => exact h.phrase.chained
  | and => exact h.phrase.chained
  | equality => exact h.phrase.chained
  | relation => exact h.phrase.chained
  | sum => exact h.phrase.chained
  | product => exact h.chained
  | union => exact h.union

theorem Rule.Joins.join {r r' : Rule} {os : List Operator} {o : Operator} (hr : r.Joins os r')
    (ho : o ∈ os) (h : Symbol.Reads (.expr r) ts e) (h' : Symbol.Reads (.expr r') us e') :
    Symbol.Reads (.expr r) (ts ++ .operator o :: us) (.binary o e e') := by
  cases hr with
  | or => exact h.binary h'.phrase (by decide) ho
  | and => exact h.binary h'.phrase (by decide) ho
  | equality => exact h.binary h'.phrase (by decide) ho
  | relation => exact h.binary h'.phrase (by decide) ho
  | sum => exact h.binary h'.phrase (by decide) ho
  | product => exact h.binary h' (by decide) ho
  | union =>
    cases List.mem_singleton.1 ho
    exact h.binary h'

theorem Derives.reads {s : Symbol} {tree : s.Tree} (h : Derives s ts tree) : s.Reads ts tree := by
  induction h with
  | operand hr _ ih => exact hr.operand ih
  | join hr ho _ _ ih ih' => exact hr.join ho ih ih'
  | minus _ ih => exact Phrase.negate ih
  | unsigned _ ih => exact UnionPhrase.phrase ih
  | located _ ih => exact ih
  | bare _ ih => exact FilterPhrase.bare ih
  | narrowed _ _ ih hp => exact FilterPhrase.narrowed ih hp
  | continued _ _ hsteps ih hp hs =>
    exact FilterPhrase.continued ih hp (StepsPhrase.continuation_slash hs) (by cases hsteps <;> simp)
  | continuedBelow _ _ _ ih hp hs =>
    exact FilterPhrase.continued ih hp (StepsPhrase.continuation_doubleSlash hs) (by simp)
  | root => exact pathPhrase_root
  | absolute _ ih => exact StepsPhrase.absolute ih
  | belowRoot _ ih => exact StepsPhrase.belowRoot ih
  | relative _ ih => exact StepsPhrase.relative ih
  | lastStep _ ih => exact StepPhrase.last ih
  | slash _ _ ih ih' => exact StepPhrase.continued ih (StepsPhrase.continuation_slash ih')
  | doubleSlash _ _ ih ih' => exact StepPhrase.continued ih (StepsPhrase.continuation_doubleSlash ih')
  | self => exact stepPhrase_dot
  | parent => exact stepPhrase_doubleDot
  | tested ha ht _ hp => exact PredicatesPhrase.step ha ht hp
  | literal value => exact filterPhrase_literal value
  | number value => exact filterPhrase_number value
  | parenthesized _ ih => exact ih.phrase.filterPhrase
  | call name _ ih => exact ArgumentsPhrase.filterPhrase name ih
  | noPredicate => exact predicatesPhrase_nil
  | predicate _ _ ih ih' => exact PredicatesPhrase.cons ih.phrase ih'
  | noArgument => exact argumentsPhrase_nil
  | lastArgument _ ih => exact ih.phrase.lastArgument
  | argument _ _ ih ih' => exact ih.phrase.argument ih'

/-- Parsing leaves nothing over. -/
theorem ofTokens_eq_ok (h : ofTokens ts = .ok e) : expression (ts.length + 1) ts = .ok (e, []) := by
  rw [ofTokens] at h
  split at h
  · cases h
  · obtain ⟨⟨e, later⟩, hread, h⟩ := bind_eq_ok.1 h
    cases later with
    | nil =>
      cases h
      exact hread
    | cons t later => cases h

theorem derives_of_ofTokens (h : ofTokens ts = .ok e) : Derives (.expr .or) ts e := by
  obtain ⟨us, hts, hus⟩ := sound_expression _ _ _ _ (ofTokens_eq_ok h)
  rw [List.append_nil] at hts
  rwa [hts]

/-- Exactly the lists of tokens that the grammar forms are parsed, each as its tree and as a whole,
and reading comes to an end by itself: whatever stands for expressions nested deeper than there are
tokens, and however many more rounds the loops are given, the result is the same. -/
theorem parses_exactly_grammar (ts : List Token) :
    (∀ e, ofTokens ts = .ok e ↔ Derives (.expr .or) ts e) ∧
      (∀ (f : Reader Expr) (nesting : Nat), ts.length < nesting →
        disjunction^[nesting] f ts = expression (ts.length + 1) ts) ∧
      ∀ nesting rest, LoopsEnd (expression nesting) rest := by
  refine ⟨fun e => ⟨derives_of_ofTokens, fun h => (Chained.phrase h.reads).ofTokens⟩, ?_,
    loopsEnd_expression⟩
  intro f nesting hnesting
  rw [expression_eq_iterate]
  exact (AgreeBelow.iterate f _ hnesting (Nat.le_refl _) ts (Nat.lt_succ_self _)).1

/-- A union of paths. A minus sign binds looser than a union, so none stands before its operands. -/
theorem parses_exactly_grammar_union :
    (∃ e, Derives (.expr .or) [.name "a", .doubleSlash, .name "b", .operator .union, .dot] e) ∧
      (∀ e, ¬ Derives (.expr .or) [.name "a", .operator .union, .operator .subtract, .dot] e) ∧
      disjunction^[6] (fun ts => .ok (.literal "", ts))
          [.name "a", .doubleSlash, .name "b", .operator .union, .dot] =
        expression 6 [.name "a", .doubleSlash, .name "b", .operator .union, .dot] := by
  refine ⟨⟨_, ((parses_exactly_grammar _).1 _).1 rfl⟩, fun e he => ?_,
    (parses_exactly_grammar _).2.1 _ 6 (by decide)⟩
  have h := ((parses_exactly_grammar _).1 e).2 he
  cases h

end CssLocator.XPath
