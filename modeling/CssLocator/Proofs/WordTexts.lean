import CssLocator.Proofs.Texts

/-!
# Words in texts

A text consists of words that stand in a row in another text if and only if it occurs between blanks
when the words are written with blanks around them.
-/

namespace CssLocator.Text

variable {w : Text} {ws : List Text}

/-- Words, each with a blank after it. -/
def spaced (ws : List Text) : Text := ws.flatMap (· ++ [' '])

@[simp] theorem spaced_cons (v : Text) (ws : List Text) :
    spaced (v :: ws) = v ++ ' ' :: spaced ws := by
  rw [spaced, List.flatMap_cons, List.append_assoc]
  rfl

private theorem join_append_blank (v : Text) (ws : List Text) :
    join [' '] (v :: ws) ++ [' '] = spaced (v :: ws) := by
  induction ws generalizing v with
  | nil => simp [join, spaced]
  | cons u ws ih => rw [join, List.append_assoc, ih, spaced_cons v, List.append_assoc]; rfl

/-- What stands before a blank in written words is a run of the words from the first one on. -/
theorem exists_run_of_blank {w after : Text} (hws : ∀ v ∈ ws, ' ' ∉ v)
    (h : w ++ ' ' :: after = spaced ws) :
    ∃ run rest, ws = run ++ rest ∧ run ≠ [] ∧ w ++ [' '] = spaced run := by
  induction ws generalizing w with
  | nil => simp [spaced] at h
  | cons v ws ih =>
    have hv : ' ' ∉ v := hws v List.mem_cons_self
    rw [spaced_cons] at h
    rcases List.append_eq_append_iff.1 h with ⟨between, rfl, hlater⟩ | ⟨between, rfl, hlater⟩
    · cases between with
      | nil => exact ⟨[w], ws, by simp, by simp, by simp [spaced]⟩
      | cons b between =>
        obtain rfl : ' ' = b := (List.cons.inj hlater).1
        simp at hv
    · cases between with
      | nil => exact ⟨[v], ws, by simp, by simp, by simp [spaced]⟩
      | cons b between =>
        obtain ⟨rfl, hrest⟩ := List.cons.inj hlater
        obtain ⟨run, rest, rfl, -, hrun⟩ :=
          ih (fun u hu => hws u (List.mem_cons_of_mem v hu)) hrest.symm
        refine ⟨v :: run, rest, rfl, List.cons_ne_nil _ _, ?_⟩
        rw [spaced_cons, ← hrun]
        simp

private theorem infix_spaced_of_run {run : List Text} (hne : run ≠ []) (h : run <:+: ws) :
    (' ' :: (join [' '] run ++ [' '])) <:+: (' ' :: spaced ws) := by
  obtain ⟨before, after, rfl⟩ := h
  obtain ⟨u, us, rfl⟩ := List.exists_cons_of_ne_nil hne
  rw [join_append_blank]
  induction before with
  | nil => exact ⟨[], spaced after, by simp [spaced]⟩
  | cons v before ih =>
    rw [List.cons_append, List.cons_append, spaced_cons v]
    exact ih.trans (List.suffix_append (' ' :: v) _).isInfix

/-- What stands between blanks in written words is a run of the words. The induction passes over the
first word unless the run begins with it. -/
theorem exists_run_of_infix (hws : ∀ v ∈ ws, ' ' ∉ v)
    (h : (' ' :: (w ++ [' '])) <:+: (' ' :: spaced ws)) :
    ∃ run, run ≠ [] ∧ run <:+: ws ∧ join [' '] run = w := by
  induction ws with
  | nil =>
    have hlength := h.length_le
    simp [spaced] at hlength
  | cons v ws ih =>
    obtain ⟨before, after, hsplit⟩ := h
    cases before with
    | nil =>
      have heq : w ++ ' ' :: after = spaced (v :: ws) := by simpa using hsplit
      obtain ⟨run, rest, hrun, hne, hspaced⟩ := exists_run_of_blank hws heq
      obtain ⟨u, us, rfl⟩ := List.exists_cons_of_ne_nil hne
      rw [← join_append_blank] at hspaced
      exact ⟨_, hne, ⟨[], rest, hrun.symm⟩, (List.append_cancel_right hspaced).symm⟩
    | cons c before =>
      have hv : ' ' ∉ v := hws v List.mem_cons_self
      have heq : v ++ ' ' :: spaced ws = before ++ ' ' :: (w ++ ' ' :: after) := by
        simpa [eq_comm] using (List.cons.inj hsplit).2.symm
      have hrest : (' ' :: (w ++ [' '])) <:+: (' ' :: spaced ws) := by
        rcases List.append_eq_append_iff.1 heq with ⟨between, rfl, hlater⟩ | ⟨between, rfl, hlater⟩
        · exact ⟨between, after, by rw [hlater]; simp⟩
        · cases between with
          | nil => exact ⟨[], after, by simpa using hlater⟩
          | cons b between =>
            obtain rfl : ' ' = b := (List.cons.inj hlater).1
            simp at hv
      obtain ⟨run, hne, hinfix, hjoin⟩ := ih (fun u hu => hws u (List.mem_cons_of_mem v hu)) hrest
      exact ⟨run, hne, hinfix.trans (List.suffix_cons v ws).isInfix, hjoin⟩

/-- The text consists of words that stand in a row, with a blank between neighbours. It is empty only
if there are no words at all. -/
def IsRun (w : Text) (ws : List Text) : Prop :=
  ∃ run, run <:+: ws ∧ join [' '] run = w ∧ (run = [] → ws = [])

/-- Runs of words are found by what stands between blanks. -/
theorem occursIn_run (hws : ∀ v ∈ ws, ' ' ∉ v) :
    occursIn (" " ++ w ++ " ") (" " ++ (join " " ws ++ " ")) ↔ IsRun w ws := by
  rw [occursIn_iff, IsRun]
  cases ws with
  | nil =>
    show (' ' :: (w ++ [' '])) <:+: [' ', ' '] ↔ _
    constructor
    · intro h
      have hlength := h.length_le
      simp only [List.length_cons, List.length_append, List.length_nil] at hlength
      have hw : w = [] := List.length_eq_zero_iff.1 (by omega)
      exact ⟨[], List.nil_infix, hw.symm, fun _ => rfl⟩
    · rintro ⟨run, hrun, rfl, -⟩
      rw [List.infix_nil] at hrun
      rw [hrun]
      exact List.infix_rfl
  | cons v ws =>
    show (' ' :: (w ++ [' '])) <:+: (' ' :: (join [' '] (v :: ws) ++ [' '])) ↔ _
    rw [join_append_blank]
    constructor
    · intro h
      obtain ⟨run, hne, hinfix, hjoin⟩ := exists_run_of_infix hws h
      exact ⟨run, hinfix, hjoin, fun hnil => absurd hnil hne⟩
    · rintro ⟨run, hinfix, rfl, hnil⟩
      exact infix_spaced_of_run (fun h => List.cons_ne_nil v ws (hnil h)) hinfix

/-- A single word is a run if it is one of the words. -/
theorem isRun_iff_mem (hne : w ≠ []) (hw : ' ' ∉ w) : IsRun w ws ↔ w ∈ ws := by
  constructor
  · rintro ⟨run, hinfix, rfl, -⟩
    cases run with
    | nil => exact absurd rfl hne
    | cons u us =>
      cases us with
      | nil => exact hinfix.subset List.mem_cons_self
      | cons v vs => simp [join] at hw
  · intro hmem
    obtain ⟨before, after, hws⟩ := List.append_of_mem hmem
    exact ⟨[w], ⟨before, after, by simp [hws]⟩, rfl, fun hnil => absurd hnil (List.cons_ne_nil w [])⟩

/-- The text stands in the other one between characters in the class `p` or the ends. -/
def StandsIn (p : Char → Bool) (w s : Text) : Prop :=
  ∃ before after, s = before ++ w ++ after ∧ (∀ c ∈ before.getLast?, p c) ∧ ∀ c ∈ after.head?, p c

private theorem standsIn_of_mem_splitAt {p : Char → Bool} {s : Text} (h : w ∈ splitAt p s) :
    StandsIn p w s := by
  induction hn : s.length using Nat.strongRecOn generalizing s with
  | ind n ih =>
    cases hfind : s.find? p with
    | none =>
      have hs : ∀ c ∈ s, p c = false := by simpa using hfind
      rw [splitAt_of_forall hs, List.mem_singleton] at h
      exact ⟨[], [], by simp [h], by simp, by simp⟩
    | some c =>
      obtain ⟨hc, u, v, rfl, hu⟩ := List.find?_eq_some_iff_append.1 hfind
      have hpiece : ∀ d ∈ u, p d = false := by simpa using hu
      rw [splitAt_append hc, splitAt_of_forall hpiece, List.singleton_append, List.mem_cons] at h
      rcases h with rfl | h
      · exact ⟨[], c :: v, rfl, by simp, by simpa using hc⟩
      · have hlength : v.length < n := by simp at hn; omega
        obtain ⟨before, after, rfl, hbefore, hafter⟩ := ih v.length hlength h rfl
        refine ⟨u ++ c :: before, after, by simp, ?_, hafter⟩
        cases before with
        | nil => simpa using hc
        | cons d before => simpa using hbefore

private theorem mem_splitAt_of_standsIn {p : Char → Bool} {s : Text} (hw : ∀ c ∈ w, p c = false)
    (h : StandsIn p w s) : w ∈ splitAt p s := by
  obtain ⟨before, after, rfl, hbefore, hafter⟩ := h
  have hfirst : w ∈ splitAt p (w ++ after) := by
    cases after with
    | nil => simp [splitAt_of_forall hw]
    | cons c after => simp [splitAt_append (hafter c rfl), splitAt_of_forall hw]
  rcases List.eq_nil_or_concat before with rfl | ⟨before, c, rfl⟩
  · exact hfirst
  · have hc : p c := hbefore c (by simp)
    have hsplit : before.concat c ++ w ++ after = before ++ c :: (w ++ after) := by simp
    rw [hsplit, splitAt_append hc]
    exact List.mem_append_right _ hfirst

/-- A word without characters in the class is one of the words of a text if and only if it stands in
the text. -/
theorem mem_words_iff {p : Char → Bool} {s : Text} (hne : w ≠ []) (hw : ∀ c ∈ w, p c = false) :
    w ∈ words p s ↔ StandsIn p w s := by
  rw [words, List.mem_filter]
  constructor
  · rintro ⟨h, -⟩
    exact standsIn_of_mem_splitAt h
  · intro h
    exact ⟨mem_splitAt_of_standsIn hw h, by simpa using hne⟩

private theorem splitAt_congr {p q : Char → Bool} {s : Text} (h : ∀ c ∈ s, p c = q c) :
    splitAt p s = splitAt q s := by
  induction s with
  | nil => rfl
  | cons c s ih =>
    rw [splitAt, splitAt, h c List.mem_cons_self, ih fun d hd => h d (List.mem_cons_of_mem c hd)]

private theorem isSpace_of_isAsciiSpace {c : Char} (h : isAsciiSpace c) : isSpace c := by
  unfold isAsciiSpace at h
  simp only [Bool.or_eq_true, beq_iff_eq] at h
  rcases h with (((rfl | rfl) | rfl) | rfl) | rfl <;> decide

/-- Words do not depend on the kind of white space if there is only the common one. -/
theorem words_isSpace {s : Text} (h : ∀ c ∈ s, isSpace c → isAsciiSpace c) :
    words isSpace s = words isAsciiSpace s := by
  have hsame : ∀ c ∈ s, isSpace c = isAsciiSpace c := by
    intro c hc
    rw [Bool.eq_iff_iff]
    exact ⟨h c hc, isSpace_of_isAsciiSpace⟩
  rw [words, words, splitAt_congr hsame]

theorem not_blank_of_mem_words {s v : Text} (h : v ∈ words isSpace s) : ' ' ∉ v := by
  intro hblank
  have hspace := of_mem_splitAt (List.mem_of_mem_filter h) ' ' hblank
  cases hspace

end CssLocator.Text
