import CssLocator.Proofs.ExpressionGrammar
import Mathlib.Logic.Function.Iterate

/-!
# Bounds of readers

A reader leaves no more tokens than it finds, and what it reads inside parentheses and brackets is
shorter. So neither more rounds of a loop than there are tokens nor more levels of nesting make a
difference.
-/

namespace CssLocator.XPath

open Reader

variable {α β : Type} {k m n : Nat} {ts : List Token} {os : List Operator} {e : Expr}
variable {rounds rounds' : Nat} {f g : Reader Expr}

/-- The results are the same, and at most so many tokens are left. -/
def Tied (m : Nat) (x y : Except Error (α × List Token)) : Prop :=
  x = y ∧ ∀ a rest, x = .ok (a, rest) → rest.length ≤ m

section

variable {x y : Except Error (α × List Token)}

theorem Tied.ok {a : α} (h : ts.length ≤ m) : Tied m (.ok (a, ts)) (.ok (a, ts)) := by
  refine ⟨rfl, fun b rest heq => ?_⟩
  cases heq
  exact h

theorem Tied.error (error : Error) : Tied m (.error error : Except Error (α × List Token)) (.error error) :=
  ⟨rfl, nofun⟩

theorem Tied.mono (h : Tied m x y) (hmn : m ≤ n) : Tied n x y :=
  ⟨h.1, fun a rest heq => Nat.le_trans (h.2 a rest heq) hmn⟩

theorem Tied.bind {f g : α × List Token → Except Error (β × List Token)} (h : Tied m x y)
    (hfg : ∀ a rest, rest.length ≤ m → Tied n (f (a, rest)) (g (a, rest))) :
    Tied n (x >>= f) (y >>= g) := by
  obtain ⟨rfl, hlength⟩ := h
  cases x with
  | error error => exact .error error
  | ok p => exact hfg p.1 p.2 (hlength p.1 p.2 rfl)

theorem Tied.expect {f g : List Token → Except Error (α × List Token)} (wanted : Token)
    (hfg : ∀ rest, rest.length < ts.length → Tied n (f rest) (g rest)) :
    Tied n (Reader.expect wanted ts >>= f) (Reader.expect wanted ts >>= g) := by
  cases ts with
  | nil => exact .error _
  | cons t ts =>
    rw [Reader.expect]
    split
    · exact hfg ts (Nat.lt_succ_self _)
    · exact .error _

end

/-- The readers agree on fewer than so many tokens, and leave no more than they find. -/
def AgreeBelow (m : Nat) (f g : Reader α) : Prop :=
  ∀ ts, ts.length < m → Tied ts.length (f ts) (g ts)

/-- Loops agree if they do on no tokens, and if one round of them does whenever what follows it
does. Each round takes a token, so that rounds beyond the number of tokens make no difference. -/
theorem tied_rounds {ι : Type} {f g : ι → (rounds : Nat) → Reader α}
    (hnil : ∀ i rounds rounds', Tied 0 (f i rounds []) (g i rounds' []))
    (hround : ∀ i rounds rounds' t ts, ts.length < m →
      (∀ j rest, rest.length ≤ ts.length →
        Tied rest.length (f j rounds rest) (g j rounds' rest)) →
      Tied (ts.length + 1) (f i (rounds + 1) (t :: ts)) (g i (rounds' + 1) (t :: ts)))
    (i : ι) (hts : ts.length ≤ m) (hrounds : ts.length ≤ rounds) (hrounds' : ts.length ≤ rounds') :
    Tied ts.length (f i rounds ts) (g i rounds' ts) := by
  induction rounds generalizing i ts rounds' with
  | zero =>
    cases List.length_eq_zero_iff.1 (Nat.le_zero.1 hrounds)
    exact hnil i 0 rounds'
  | succ rounds ih =>
    cases ts with
    | nil => exact hnil i (rounds + 1) rounds'
    | cons t ts =>
      rw [List.length_cons] at *
      obtain ⟨rounds', rfl⟩ := Nat.exists_eq_succ_of_ne_zero (show rounds' ≠ 0 by omega)
      refine hround i rounds rounds' t ts (by omega) fun j rest hrest => ?_
      exact ih j (by omega) (by omega) (by omega)

theorem AgreeBelow.chainFrom (h : AgreeBelow m f g) (hts : ts.length ≤ m)
    (hrounds : ts.length ≤ rounds) (hrounds' : ts.length ≤ rounds') :
    Tied ts.length (Reader.chainFrom os f rounds e ts) (Reader.chainFrom os g rounds' e ts) := by
  refine tied_rounds (f := fun e rounds => Reader.chainFrom os f rounds e)
    (g := fun e rounds => Reader.chainFrom os g rounds e) ?_ ?_ e hts hrounds hrounds'
  · intro e rounds rounds'
    cases rounds <;> cases rounds' <;> exact .ok (Nat.le_refl _)
  · intro e rounds rounds' t ts hts hnext
    rw [Reader.chainFrom, Reader.chainFrom]
    split
    · exact .ok (Nat.le_refl _)
    · refine (h ts hts).bind fun right rest hrest => ?_
      exact (hnext _ rest hrest).mono (by omega)

theorem AgreeBelow.chain (h : AgreeBelow m f g) :
    AgreeBelow m (Reader.chain os f) (Reader.chain os g) := by
  intro ts hts
  refine (h ts hts).bind fun left rest hrest => ?_
  exact (h.chainFrom (by omega) (Nat.le_refl _) (Nat.le_refl _)).mono hrest

theorem AgreeBelow.negation (h : AgreeBelow m f g) :
    AgreeBelow m (Reader.negation f) (Reader.negation g) := by
  intro ts
  induction ts with
  | nil => exact h []
  | cons t ts ih =>
    intro hts
    unfold Reader.negation
    split
    · rename_i later heq
      cases heq
      rw [List.length_cons] at *
      exact (ih (by omega)).bind fun inner rest hrest => .ok (by omega)
    · exact h (t :: ts) hts

section

variable (h : AgreeBelow m f g)
include h

theorem AgreeBelow.predicatesFrom (hts : ts.length ≤ m) (hrounds : ts.length ≤ rounds)
    (hrounds' : ts.length ≤ rounds') :
    Tied ts.length (Reader.predicatesFrom f rounds ts) (Reader.predicatesFrom g rounds' ts) := by
  refine tied_rounds (f := fun _ => Reader.predicatesFrom f)
    (g := fun _ => Reader.predicatesFrom g) ?_ ?_ () hts hrounds hrounds'
  · intro _ rounds rounds'
    cases rounds <;> cases rounds' <;> exact .ok (Nat.le_refl _)
  · intro _ rounds rounds' t ts hts hnext
    by_cases ht : t = .leftBracket
    · cases ht
      refine (h ts hts).bind fun p afterPredicate hp => ?_
      refine .expect .rightBracket fun afterBracket hbracket => ?_
      refine (hnext () afterBracket (by omega)).bind fun ps rest hrest => ?_
      exact .ok (by omega)
    · have hhead : (t :: ts).head? ≠ some .leftBracket := by simpa using ht
      rw [predicatesFrom_of_head hhead, predicatesFrom_of_head hhead]
      exact .ok (Nat.le_refl _)

theorem AgreeBelow.predicates (hts : ts.length ≤ m) :
    Tied ts.length (Reader.predicates f ts) (Reader.predicates g ts) :=
  h.predicatesFrom hts (Nat.le_refl _) (Nat.le_refl _)

omit h in
private theorem tied_axis (ts : List Token) : Tied ts.length (Reader.axis ts) (Reader.axis ts) := by
  refine ⟨rfl, fun a rest heq => ?_⟩
  obtain ⟨us, rfl, -⟩ := exists_axisTokens heq
  simp

omit h in
private theorem tied_nodeTest (ts : List Token) :
    Tied ts.length (Reader.nodeTest ts) (Reader.nodeTest ts) := by
  refine ⟨rfl, fun test rest heq => ?_⟩
  obtain ⟨us, rfl, -⟩ := exists_testTokens heq
  simp

theorem AgreeBelow.step (hts : ts.length ≤ m) :
    Tied ts.length (Reader.step f ts) (Reader.step g ts) := by
  unfold Reader.step
  split
  · exact .ok (by simp)
  · exact .ok (by simp)
  · refine (tied_axis ts).bind fun a afterAxis ha => ?_
    refine (tied_nodeTest afterAxis).bind fun test afterTest htest => ?_
    refine (h.predicates (by omega)).bind fun ps rest hrest => ?_
    exact .ok (by omega)

theorem AgreeBelow.stepsFrom (hts : ts.length ≤ m) (hrounds : ts.length ≤ rounds)
    (hrounds' : ts.length ≤ rounds') :
    Tied ts.length (Reader.stepsFrom f rounds ts) (Reader.stepsFrom g rounds' ts) := by
  refine tied_rounds (f := fun _ => Reader.stepsFrom f) (g := fun _ => Reader.stepsFrom g)
    ?_ ?_ () hts hrounds hrounds'
  · intro _ rounds rounds'
    cases rounds <;> cases rounds' <;> exact .ok (Nat.le_refl _)
  · intro _ rounds rounds' t ts hts hnext
    by_cases hslash : t = .slash
    · cases hslash
      refine (h.step (by omega)).bind fun s afterStep hs => ?_
      exact (hnext () afterStep hs).bind fun more rest hrest => .ok (by omega)
    · by_cases hdouble : t = .doubleSlash
      · cases hdouble
        refine (h.step (by omega)).bind fun s afterStep hs => ?_
        exact (hnext () afterStep hs).bind fun more rest hrest => .ok (by omega)
      · have hhead : (t :: ts).head? ≠ some .slash ∧ (t :: ts).head? ≠ some .doubleSlash := by
          simp [hslash, hdouble]
        rw [stepsFrom_of_head _ hhead.1 hhead.2, stepsFrom_of_head _ hhead.1 hhead.2]
        exact .ok (Nat.le_refl _)

theorem AgreeBelow.relativePath (hts : ts.length ≤ m) :
    Tied ts.length (Reader.relativePath f ts) (Reader.relativePath g ts) := by
  refine (h.step hts).bind fun s afterStep hs => ?_
  refine (h.stepsFrom (by omega) (Nat.le_refl _) (Nat.le_refl _)).bind fun more rest hrest => ?_
  exact .ok (by omega)

theorem AgreeBelow.locationPath (hts : ts.length ≤ m) :
    Tied ts.length (Reader.locationPath f ts) (Reader.locationPath g ts) := by
  unfold Reader.locationPath
  split
  · rename_i later
    rw [List.length_cons] at *
    exact (h.relativePath (by omega)).bind fun steps rest hrest => .ok (by omega)
  · rename_i later
    rw [List.length_cons] at *
    split
    · exact (h.relativePath (by omega)).bind fun steps rest hrest => .ok (by omega)
    · exact .ok (by omega)
  · exact (h.relativePath hts).bind fun steps rest hrest => .ok hrest

theorem AgreeBelow.argumentsFrom (hts : ts.length ≤ m) (hrounds : ts.length ≤ rounds)
    (hrounds' : ts.length ≤ rounds') :
    Tied ts.length (Reader.argumentsFrom f rounds ts) (Reader.argumentsFrom g rounds' ts) := by
  have hend : ∀ ts : List Token, ts.head? ≠ some .comma → ∀ rounds rounds',
      Tied ts.length (Reader.argumentsFrom f rounds ts) (Reader.argumentsFrom g rounds' ts) := by
    intro ts hhead rounds rounds'
    rw [argumentsFrom_of_head rounds hhead, argumentsFrom_of_head rounds' hhead]
    exact .expect .rightParen fun rest hrest => .ok (Nat.le_of_lt hrest)
  refine tied_rounds (f := fun _ => Reader.argumentsFrom f)
    (g := fun _ => Reader.argumentsFrom g) ?_ ?_ () hts hrounds hrounds'
  · exact fun _ => hend [] nofun
  · intro _ rounds rounds' t ts hts hnext
    by_cases hcomma : t = .comma
    · cases hcomma
      refine (h ts hts).bind fun e afterArgument he => ?_
      exact (hnext () afterArgument he).bind fun more rest hrest => .ok (by omega)
    · exact hend (t :: ts) (by simpa using hcomma) (rounds + 1) (rounds' + 1)

theorem AgreeBelow.arguments (hts : ts.length ≤ m) :
    Tied ts.length (Reader.arguments f ts) (Reader.arguments g ts) := by
  refine .expect .leftParen fun afterParen hparen => ?_
  split
  · rw [List.length_cons] at *
    exact .ok (by omega)
  · refine (h afterParen (by omega)).bind fun e afterArgument he => ?_
    refine (h.argumentsFrom (by omega) (Nat.le_refl _) (Nat.le_refl _)).bind
      fun more rest hrest => ?_
    exact .ok (by omega)

theorem AgreeBelow.continuation (hts : ts.length ≤ m) :
    Tied ts.length (Reader.continuation f ts) (Reader.continuation g ts) := by
  unfold Reader.continuation
  split
  · rename_i later
    rw [List.length_cons] at *
    exact (h.relativePath (by omega)).bind fun steps rest hrest => .ok (by omega)
  · rename_i later
    rw [List.length_cons] at *
    exact (h.relativePath (by omega)).mono (by omega)
  · exact .ok (Nat.le_refl _)

theorem AgreeBelow.filtered (hts : ts.length ≤ m) :
    Tied ts.length (Reader.filtered f e ts) (Reader.filtered g e ts) := by
  refine (h.predicates hts).bind fun ps afterPredicates hps => ?_
  refine (h.continuation (by omega)).bind fun steps rest hrest => ?_
  exact .ok (by omega)

theorem AgreeBelow.pathExpression :
    AgreeBelow (m + 1) (Reader.pathExpression f) (Reader.pathExpression g) := by
  intro ts hts
  unfold Reader.pathExpression
  split
  · rw [List.length_cons] at *
    exact (h.filtered (by omega)).mono (by omega)
  · rw [List.length_cons] at *
    exact (h.filtered (by omega)).mono (by omega)
  · rename_i later
    rw [List.length_cons] at *
    refine (h later (by omega)).bind fun inner afterInner hinner => ?_
    refine .expect .rightParen fun afterParen hparen => ?_
    exact (h.filtered (by omega)).mono (by omega)
  · rename_i later
    rw [List.length_cons] at *
    refine (h.arguments (by omega)).bind fun es afterArguments hes => ?_
    exact (h.filtered (by omega)).mono (by omega)
  · exact h.locationPath (by omega)

/-- What is read inside parentheses and brackets is shorter than the whole. -/
theorem AgreeBelow.disjunction :
    AgreeBelow (m + 1) (Reader.disjunction f) (Reader.disjunction g) :=
  h.pathExpression.chain.negation.chain.chain.chain.chain.chain.chain

end

/-- What stands for expressions that are nested deeper than there are tokens makes no difference. -/
theorem AgreeBelow.iterate (f g : Reader Expr) {k n : Nat} (hmk : m ≤ k) (hmn : m ≤ n) :
    AgreeBelow m (Reader.disjunction^[k] f) (Reader.disjunction^[n] g) := by
  induction m generalizing k n with
  | zero => exact fun ts hts => absurd hts (Nat.not_lt_zero _)
  | succ m ih =>
    obtain ⟨k, rfl⟩ := Nat.exists_eq_succ_of_ne_zero (show k ≠ 0 by omega)
    obtain ⟨n, rfl⟩ := Nat.exists_eq_succ_of_ne_zero (show n ≠ 0 by omega)
    rw [Function.iterate_succ_apply', Function.iterate_succ_apply']
    exact (ih (by omega) (by omega)).disjunction

theorem expression_eq_iterate (n : Nat) :
    Reader.expression n = Reader.disjunction^[n] (Reader.expression 0) := by
  induction n with
  | zero => rfl
  | succ n ih =>
    rw [Function.iterate_succ_apply', ← ih]
    rfl

theorem agreeBelow_expression (m n : Nat) :
    AgreeBelow m (Reader.expression n) (Reader.expression n) := by
  induction n generalizing m with
  | zero => exact fun ts _ => .error _
  | succ n ih =>
    cases m with
    | zero => exact fun ts hts => absurd hts (Nat.not_lt_zero _)
    | succ m => exact (ih m).disjunction

private theorem agreeBelow_phraseReader (m n k : Nat) :
    AgreeBelow m (phraseReader (Reader.expression n) k) (phraseReader (Reader.expression n) k) := by
  induction k with
  | zero =>
    cases m with
    | zero => exact fun ts hts => absurd hts (Nat.not_lt_zero _)
    | succ m => exact (agreeBelow_expression m n).pathExpression.chain.negation
  | succ k ih => exact ih.chain

/-- More rounds than there are tokens make no difference to a loop. -/
structure LoopsEnd (expression : Reader Expr) (ts : List Token) : Prop where
  operators : ∀ k e rounds, ts.length ≤ rounds →
    Reader.chainFrom (operatorsOf k) (phraseReader expression k) rounds e ts =
      Reader.chainFrom (operatorsOf k) (phraseReader expression k) ts.length e ts
  unions : ∀ e rounds, ts.length ≤ rounds →
    Reader.chainFrom [.union] (Reader.pathExpression expression) rounds e ts =
      Reader.chainFrom [.union] (Reader.pathExpression expression) ts.length e ts
  predicates : ∀ rounds, ts.length ≤ rounds →
    Reader.predicatesFrom expression rounds ts = Reader.predicatesFrom expression ts.length ts
  steps : ∀ rounds, ts.length ≤ rounds →
    Reader.stepsFrom expression rounds ts = Reader.stepsFrom expression ts.length ts
  arguments : ∀ rounds, ts.length ≤ rounds →
    Reader.argumentsFrom expression rounds ts = Reader.argumentsFrom expression ts.length ts

theorem loopsEnd_expression (n : Nat) (ts : List Token) : LoopsEnd (Reader.expression n) ts := by
  have hn := agreeBelow_expression ts.length n
  exact {
    operators := fun k e rounds hrounds =>
      ((agreeBelow_phraseReader _ n k).chainFrom (Nat.le_refl _) hrounds (Nat.le_refl _)).1
    unions := fun e rounds hrounds =>
      (hn.pathExpression.chainFrom (Nat.le_succ _) hrounds (Nat.le_refl _)).1
    predicates := fun rounds hrounds =>
      (hn.predicatesFrom (Nat.le_refl _) hrounds (Nat.le_refl _)).1
    steps := fun rounds hrounds => (hn.stepsFrom (Nat.le_refl _) hrounds (Nat.le_refl _)).1
    arguments := fun rounds hrounds =>
      (hn.argumentsFrom (Nat.le_refl _) hrounds (Nat.le_refl _)).1 }

end CssLocator.XPath
