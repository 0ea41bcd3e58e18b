import CssLocator.Proofs.PrintedSelectors

/-!
# Printed selector lists

A selector list can be printed with any white space at its commas and combinators. Whatever white
space is chosen, the same list is read.
-/

namespace CssLocator

open Identifier

variable {k : Combinator} {xs : Compound} {complex : Complex} {list : SelectorList}
variable {r s t u v w : Text}

/-- The character of a combinator, if it is explicit. -/
def Combinator.mark : Combinator → Text
  | descendant => ""
  | child => ">"
  | nextSibling => "+"
  | subsequentSibling => "~"

/-- Compounds behind their combinators. White space stands around these, and has to if there is no
mark. -/
inductive ChainText : Complex → Text → Prop
  | nil : ChainText [] []
  | cons {k : Combinator} {xs : Compound} {complex : Complex} {u v t : Text} (hu : Blank u)
      (hv : Blank v) (hgap : u ++ k.mark ++ v ≠ []) (h : ChainText complex t) :
      ChainText ((k, xs) :: complex) (u ++ k.mark ++ v ++ (xs.text ++ t))

/-- At the beginning the descendant combinator needs no white space. -/
inductive ComplexText : Complex → Text → Prop
  | cons {k : Combinator} {xs : Compound} {complex : Complex} {u v t w : Text} (hu : Blank u)
      (hv : Blank v) (hw : Blank w) (h : ChainText complex t) :
      ComplexText ((k, xs) :: complex) (u ++ k.mark ++ v ++ (xs.text ++ t) ++ w)

inductive ListText : SelectorList → Text → Prop
  | last {complex : Complex} {s : Text} (h : ComplexText complex s) : ListText [complex] s
  | cons {complex : Complex} {list : SelectorList} {s t : Text} (h : ComplexText complex s)
      (hrest : ListText list t) : ListText (complex :: list) (s ++ ',' :: t)

def Complex.Printable (complex : Complex) : Prop :=
  complex ≠ [] ∧ ∀ p ∈ complex, Compound.Printable p.2

def SelectorList.Printable (list : SelectorList) : Prop :=
  list ≠ [] ∧ ∀ complex ∈ list, Complex.Printable complex

theorem skipSpace_blank (hu : Blank u) (s : Text) : Text.skipSpace (u ++ s) = Text.skipSpace s :=
  List.dropWhile_append_of_pos fun c hc => (hu c hc).2

private theorem trimEnd_blank (hw : Blank w) (s : Text) : trimEnd (s ++ w) = trimEnd s :=
  trimEnd_append_space (fun c hc => (hw c hc).2) s

theorem Combinator.mark_cases (k : Combinator) :
    (k = descendant ∧ k.mark = []) ∨
      ∃ c, k.mark = [c] ∧ combinatorOf? c = some k ∧ Text.isSpace c = false ∧ Text.isAscii c := by
  cases k with
  | descendant => exact .inl ⟨rfl, rfl⟩
  | child => exact .inr ⟨'>', rfl, rfl, rfl, rfl⟩
  | nextSibling => exact .inr ⟨'+', rfl, rfl, rfl, rfl⟩
  | subsequentSibling => exact .inr ⟨'~', rfl, rfl, rfl, rfl⟩

/-- White space and combinators end a compound, wherever one stands between them. -/
theorem endsCompound_gap (hu : Blank u) (hv : Blank v) :
    ∀ c ∈ u ++ k.mark ++ v, endsCompound c ∧ Text.isAscii c := by
  have hblank : ∀ s, Blank s → ∀ c ∈ s, endsCompound c ∧ Text.isAscii c :=
    fun s hs c hc => ⟨by simp [endsCompound, (hs c hc).2], (hs c hc).1⟩
  intro c hc
  rcases List.mem_append.1 hc with hc | hc
  · rcases List.mem_append.1 hc with hc | hc
    · exact hblank u hu c hc
    · rcases k.mark_cases with ⟨-, hk⟩ | ⟨d, hk, hd, -, hascii⟩
      · rw [hk] at hc
        cases hc
      · rw [hk] at hc
        cases List.mem_singleton.1 hc
        exact ⟨by simp [endsCompound, hd], hascii⟩
  · exact hblank v hv c hc

theorem Compound.Printable.visible (h : Compound.Printable xs) (s t : Text) :
    trimEnd (s ++ (xs.text ++ t)) = s ++ trimEnd (xs.text ++ t) := by
  obtain ⟨c, r, htext, hspace, -⟩ := h.head
  refine trimEnd_append (trimEnd_ne_nil (c := c) ?_ hspace)
  rw [htext]
  exact List.mem_cons_self

/-- A compound still begins with its first character when white space at the end is gone. -/
theorem Compound.Printable.trimEnd_eq_cons (h : Compound.Printable xs) (t : Text) :
    ∃ c s, trimEnd (xs.text ++ t) = c :: s ∧ Text.isSpace c = false ∧ combinatorOf? c = none := by
  obtain ⟨c, r, htext, hspace, hnone⟩ := h.head
  exact ⟨c, _, by rw [htext, List.cons_append, trimEnd_cons hspace], hspace, hnone⟩

private theorem ChainText.follows (h : ChainText complex t)
    (hprintable : ∀ p ∈ complex, Compound.Printable p.2) : EndsCompound t ∧ Visible t := by
  cases h with
  | nil => exact ⟨nofun, fun h => absurd rfl h⟩
  | @cons k xs complex u v t hu hv hgap _ =>
    obtain ⟨hxs, -⟩ := List.forall_mem_cons.1 hprintable
    constructor
    · obtain ⟨c, s, hcs⟩ := List.exists_cons_of_ne_nil hgap
      have hends := endsCompound_gap hu hv c (by rw [hcs]; exact List.mem_cons_self)
      rw [hcs]
      simpa [EndsCompound] using hends
    · intro _
      obtain ⟨c, s, hcs, -⟩ := hxs.trimEnd_eq_cons t
      rw [hxs.visible, hcs]
      simp

/-- What is left of a gap and the compound behind it when its leading white space is skipped. -/
theorem skipSpace_gap (hu : Blank u) (hv : Blank v) {c : Char} (hspace : Text.isSpace c = false) :
    (k = .descendant ∧ Text.skipSpace (u ++ k.mark ++ v ++ c :: s) = c :: s) ∨
      ∃ d, Text.skipSpace (u ++ k.mark ++ v ++ c :: s) = d :: (v ++ c :: s) ∧
        combinatorOf? d = some k ∧ Text.skipSpace (v ++ c :: s) = c :: s := by
  have hstart : Text.skipSpace (c :: s) = c :: s := skipSpace_of_head (by simpa using hspace)
  rcases k.mark_cases with ⟨hk, hmark⟩ | ⟨d, hmark, hd, hmarkSpace, -⟩
  · refine .inl ⟨hk, ?_⟩
    rw [hmark, List.append_nil, List.append_assoc, skipSpace_blank hu, skipSpace_blank hv, hstart]
  · refine .inr ⟨d, ?_, hd, ?_⟩
    · rw [hmark, List.append_assoc, List.append_assoc, skipSpace_blank hu]
      exact skipSpace_of_head (by simpa using hmarkSpace)
    · rw [skipSpace_blank hv, hstart]

theorem ChainText.readChain (h : ChainText complex t)
    (hprintable : ∀ p ∈ (k, xs) :: complex, Compound.Printable p.2) :
    CssLocator.readChain k (trimEnd (xs.text ++ t)) = .ok ((k, xs) :: complex) := by
  induction h generalizing k xs with
  | nil =>
    have hxs := hprintable _ List.mem_cons_self
    have hcompound := hxs.readCompound (r := []) nofun fun h => absurd rfl h
    obtain ⟨c, s, htrim, -, hnone⟩ := hxs.trimEnd_eq_cons []
    rw [htrim] at hcompound ⊢
    exact (readChain_cons hnone hcompound).1 rfl
  | @cons k' ys complex u v t hu hv hgap hchain ih =>
    obtain ⟨hxs, hrest⟩ := List.forall_mem_cons.1 hprintable
    have hys := hrest _ List.mem_cons_self
    obtain ⟨hends, hvisible⟩ := (ChainText.cons hu hv hgap hchain).follows hrest
    have hcompound := hxs.readCompound hends hvisible
    have hmore := ih hrest
    obtain ⟨c, s, htrim, -, hnone⟩ := hxs.trimEnd_eq_cons (u ++ k'.mark ++ v ++ (ys.text ++ t))
    obtain ⟨d, s', htrim', hspace, hnone'⟩ := hys.trimEnd_eq_cons t
    rw [hys.visible] at hcompound
    rw [htrim] at hcompound ⊢
    rw [htrim'] at hcompound hmore
    have hnext := (readChain_cons (k := k) hnone hcompound).2
    rcases skipSpace_gap (k := k') (s := s') hu hv hspace with
      ⟨rfl, hskip⟩ | ⟨mark, hskip, hmark, hskip'⟩
    · rw [(hnext _ _ hskip).2 hnone', hmore]
      rfl
    · rw [(hnext _ _ hskip).1 k' hmark, hskip', hmore]
      rfl

/-- The order in which the ends of a text are trimmed makes no difference. -/
theorem trim_eq_skipSpace (s : Text) : Text.trim s = Text.skipSpace (trimEnd s) := by
  show trimEnd (Text.skipSpace s) = _
  induction s with
  | nil => rfl
  | cons c s ih =>
    cases hc : Text.isSpace c with
    | false =>
      have ht := trimEnd_cons hc s
      rw [ht, skipSpace_of_head (by simpa using hc), skipSpace_of_head (by simpa using hc), ht]
    | true =>
      have hskip : ∀ t, Text.skipSpace (c :: t) = Text.skipSpace t := by simp [Text.skipSpace, hc]
      rw [hskip, ih]
      by_cases hnil : trimEnd s = []
      · have hdrop : s.reverse.dropWhile Text.isSpace = [] := by simpa [trimEnd] using hnil
        have hall : trimEnd (c :: s) = [] := by simp [trimEnd, List.dropWhile_append, hdrop, hc]
        rw [hnil, hall]
      · rw [show c :: s = [c] ++ s from rfl, trimEnd_append hnil, List.singleton_append, hskip]

theorem ComplexText.readComplex {relative : Bool} (h : ComplexText complex s)
    (hprintable : Complex.Printable complex)
    (hrelative : relative = false → complex.head?.map Prod.fst = some .descendant) :
    CssLocator.readComplex relative s = .ok complex := by
  cases h with
  | @cons k xs complex u v t w hu hv hw hchain =>
    have hxs := hprintable.2 _ List.mem_cons_self
    have hread := hchain.readChain hprintable.2
    obtain ⟨c, s, htrim, hspace, hnone⟩ := hxs.trimEnd_eq_cons t
    rw [htrim] at hread
    rw [CssLocator.readComplex, trim_eq_skipSpace, trimEnd_blank hw, hxs.visible, htrim]
    rcases skipSpace_gap (k := k) (s := s) hu hv hspace with
      ⟨rfl, hskip⟩ | ⟨mark, hskip, hmark, hskip'⟩
    · rw [hskip]
      dsimp only
      rw [hnone]
      exact hread
    · rw [hskip]
      dsimp only
      rw [hmark]
      dsimp only
      rw [hskip', hread]
      cases relative with
      | true => rfl
      | false =>
        cases Option.some.inj (hrelative rfl)
        rcases combinatorOf?_cases hmark with rfl | rfl | rfl <;> cases hmark

theorem isNeutral_of_endsCompound {c : Char} (hc : endsCompound c) : isNeutral c :=
  isNeutral_of_class (by decide) hc

theorem unsplit_gap (hu : Blank u) (hv : Blank v) :
    Unsplit .outside (u ++ k.mark ++ v) .outside :=
  unsplit_of_neutral rfl fun c hc => isNeutral_of_endsCompound (endsCompound_gap hu hv c hc).1

theorem ChainText.unsplit (h : ChainText complex t)
    (hprintable : ∀ p ∈ complex, Compound.Printable p.2) : Unsplit .outside t .outside := by
  induction h with
  | nil => exact .nil _
  | cons hu hv _ _ ih =>
    obtain ⟨hxs, hrest⟩ := List.forall_mem_cons.1 hprintable
    exact (unsplit_gap hu hv).append (hxs.unsplit.append (ih hrest))

theorem ComplexText.unsplit (h : ComplexText complex s) (hprintable : Complex.Printable complex) :
    Unsplit .outside s .outside := by
  cases h with
  | @cons k xs complex u v t w hu hv hw hchain =>
    obtain ⟨hxs, hrest⟩ := List.forall_mem_cons.1 hprintable.2
    have hend : Unsplit .outside w .outside := by
      have hgap := unsplit_gap (k := .descendant) hw (v := []) nofun
      simpa [Combinator.mark] using hgap
    exact ((unsplit_gap hu hv).append (hxs.unsplit.append (hchain.unsplit hrest))).append hend

theorem splitOuterCommas_ne_nil (n : Nesting) (s : Text) : splitOuterCommas n s ≠ [] := by
  fun_cases splitOuterCommas n s with
  | case1 => exact List.cons_ne_nil _ _
  | case2 => exact Text.extendHead_ne_nil _ _
  | case3 => exact List.cons_ne_nil _ _
  | case4 => exact Text.extendHead_ne_nil _ _

/-- The parts of a list, joined by commas. -/
@[simp] theorem join_splitOuterCommas (n : Nesting) (s : Text) :
    Text.join [','] (splitOuterCommas n s) = s := by
  fun_induction splitOuterCommas n s with
  | case1 => rfl
  | case2 n c r ih =>
    rw [Text.join_extendHead (Text.extendHead_ne_nil _ _),
      Text.join_extendHead (splitOuterCommas_ne_nil n r), ih]
  | case3 n c r _ hc ih =>
    obtain ⟨w, ws, hws⟩ := List.exists_cons_of_ne_nil (splitOuterCommas_ne_nil n r)
    rw [hws] at ih ⊢
    rw [Text.join, ih, hc.1]
    rfl
  | case4 n c r _ hc ih => rw [Text.join_extendHead (splitOuterCommas_ne_nil _ r), ih]

theorem splitOuterCommas_append (h : Unsplit .outside s .outside) (t : Text) :
    splitOuterCommas .outside (s ++ ',' :: t) = s :: splitOuterCommas .outside t := by
  have hcomma : splitOuterCommas .outside (',' :: t) = [] :: splitOuterCommas .outside t := by
    rw [splitOuterCommas, if_pos ⟨rfl, rfl⟩]
    simp
  rw [h, hcomma, Text.foldr_extendHead, List.append_nil]

/-- Every part between commas is read as the complex selector that was printed there. -/
theorem ListText.parts {relative : Bool} (h : ListText list s)
    (hprintable : ∀ complex ∈ list, Complex.Printable complex)
    (hrelative : relative = false → ∀ complex ∈ list,
      complex.head?.map Prod.fst = some .descendant) :
    List.Forall₂ (fun part complex => readComplex relative part = .ok complex)
      (splitOuterCommas .outside s) list := by
  induction h with
  | @last complex s h =>
    have hcomplex := hprintable complex List.mem_cons_self
    rw [splitOuterCommas_of_unsplit (h.unsplit hcomplex)]
    exact .cons (h.readComplex hcomplex fun hfalse => hrelative hfalse complex List.mem_cons_self) .nil
  | @cons complex list s t h _ ih =>
    obtain ⟨hcomplex, hrest⟩ := List.forall_mem_cons.1 hprintable
    rw [splitOuterCommas_append (h.unsplit hcomplex)]
    refine .cons (h.readComplex hcomplex fun hfalse => hrelative hfalse complex List.mem_cons_self) ?_
    exact ih hrest fun hfalse other hother => hrelative hfalse other (List.mem_cons_of_mem _ hother)

private theorem trim_ne_nil {c : Char} (hc : c ∈ s) (hspace : Text.isSpace c = false) :
    Text.trim s ≠ [] := by
  refine trimEnd_ne_nil (c := c) ?_ hspace
  rw [← List.takeWhile_append_dropWhile (p := Text.isSpace) (l := s)] at hc
  rcases List.mem_append.1 hc with hc | hc
  · rw [List.mem_takeWhile_imp hc] at hspace
    cases hspace
  · exact hc

/-- A list is read part by part. A text of white space only has one part, which is refused anyway. -/
theorem read_eq_ok_iff {relative : Bool} : SelectorList.read relative s = .ok list ↔
    List.Forall₂ (fun part complex => readComplex relative part = .ok complex)
      (splitOuterCommas .outside s) list := by
  refine ⟨parts_of_read, fun h => ?_⟩
  have hne : (Text.trim s).isEmpty = false := by
    by_contra hempty
    have htrim : Text.trim s = [] := by simpa using hempty
    have hspace : ∀ c ∈ s, Text.isSpace c := by
      intro c hc
      by_contra hspace
      exact trim_ne_nil hc (by simpa using hspace) htrim
    have hneutral : ∀ c ∈ s, isNeutral c :=
      fun c hc => isNeutral_of_endsCompound (by simp [endsCompound, hspace c hc])
    rw [splitOuterCommas_of_unsplit (unsplit_of_neutral rfl hneutral)] at h
    cases h with
    | cons hcomplex =>
      rw [readComplex, htrim] at hcomplex
      cases hcomplex
  rw [SelectorList.read, hne, Loop.map_eq_ok.2 h]
  rfl

theorem ListText.read {relative : Bool} (h : ListText list s) (hprintable : SelectorList.Printable list)
    (hrelative : relative = false → ∀ complex ∈ list,
      complex.head?.map Prod.fst = some .descendant) :
    SelectorList.read relative s = .ok list :=
  read_eq_ok_iff.2 (h.parts hprintable.2 hrelative)

/-- Every complex selector can be printed, for instance with one blank before each combinator. -/
theorem exists_complexText (hne : complex ≠ []) : ∃ s, ComplexText complex s := by
  have hblank : Blank [' '] := by simp [Blank]; decide
  have hnil : Blank [] := nofun
  have hchain : ∀ complex : Complex, ∃ t, ChainText complex t := by
    intro complex
    induction complex with
    | nil => exact ⟨[], .nil⟩
    | cons p complex ih =>
      obtain ⟨t, ht⟩ := ih
      exact ⟨_, .cons hblank hnil (by simp) ht⟩
  obtain ⟨p, complex, rfl⟩ := List.exists_cons_of_ne_nil hne
  obtain ⟨t, ht⟩ := hchain complex
  exact ⟨_, .cons hnil hnil hnil ht⟩

private theorem exists_listText (h : SelectorList.Printable list) : ∃ s, ListText list s := by
  obtain ⟨hne, hall⟩ := h
  induction list with
  | nil => exact absurd rfl hne
  | cons complex list ih =>
    obtain ⟨hcomplex, hrest⟩ := List.forall_mem_cons.1 hall
    obtain ⟨s, hs⟩ := exists_complexText hcomplex.1
    cases list with
    | nil => exact ⟨s, .last hs⟩
    | cons other list =>
      obtain ⟨t, ht⟩ := ih (List.cons_ne_nil _ _) hrest
      exact ⟨_, .cons hs ht⟩

/-- Reading undoes printing, whatever white space was chosen. Only the reading of relative selectors
takes those that begin with an explicit combinator. -/
theorem printed_lists_read_back (relative : Bool) (h : SelectorList.Printable list)
    (hrelative : relative = false → ∀ complex ∈ list,
      complex.head?.map Prod.fst = some .descendant) :
    (∃ s, ListText list s) ∧ ∀ s, ListText list s → SelectorList.read relative s = .ok list :=
  ⟨exists_listText h, fun _ hs => hs.read h hrelative⟩

/-- The escape of a digit takes one of two blanks, and the other one is a combinator. -/
theorem printed_lists_read_back_digit :
    SelectorList.Printable
        [[(.child, [.className "1"]), (.descendant, [.pseudo ⟨"is", some "[,]"⟩])]] ∧
      SelectorList.read true ">.\\31  :is([,]) " =
        .ok [[(.child, [.className "1"]), (.descendant, [.pseudo ⟨"is", some "[,]"⟩])]] := by
  have hblank : Blank [' '] := by simp [Blank]; decide
  have hdigit : IsName "1" := ⟨List.cons_ne_nil _ _, by simp; decide⟩
  have his : IsName "is" := ⟨List.cons_ne_nil _ _, by simp; decide⟩
  have hargument : Nested none 0 0 "[,]" := .openBracket (.flat rfl (.closeBracket .nil))
  have hclass : Compound.Printable [.className "1"] :=
    ⟨List.cons_ne_nil _ _, List.forall_mem_singleton.2 hdigit, nofun⟩
  have hpseudo : Compound.Printable [.pseudo ⟨"is", some "[,]"⟩] := by
    refine ⟨List.cons_ne_nil _ _, List.forall_mem_singleton.2 ⟨his, rfl, ?_⟩, nofun⟩
    rintro argument ⟨⟩
    exact hargument
  have hprintable : SelectorList.Printable
      [[(.child, [.className "1"]), (.descendant, [.pseudo ⟨"is", some "[,]"⟩])]] := by
    refine ⟨List.cons_ne_nil _ _, List.forall_mem_singleton.2 ⟨List.cons_ne_nil _ _, ?_⟩⟩
    exact List.forall_mem_cons.2 ⟨hclass, List.forall_mem_singleton.2 hpseudo⟩
  refine ⟨hprintable, (printed_lists_read_back true hprintable nofun).2 _ (.last ?_)⟩
  exact .cons (u := []) (v := []) nofun nofun hblank
    (.cons (u := [' ']) (v := []) hblank nofun (by simp) .nil)

end CssLocator
