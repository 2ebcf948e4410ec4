import Mathlib.Data.List.Basic
import LoxLex.Proofs.Scan.Search
import LoxLex.Proofs.Text.Offset

/-! # How far a scan looks ahead

Whatever piece a scan takes, two characters behind it settle that it ends there: a number looks at
a point and at what follows the point, and no other piece looks further. The one exception is a
slash in front of a star, for the end of its comment may be anywhere. So a step that ends two
characters before the source does, and comes before any search that fails, is a step of every longer
source as well (`scan_append_of_isFirm`). The step lemma is `Cursor.next?_extend`, the run lemma
`Cursor.isPrefix_steps_extend`. -/

namespace LoxLex

/-! ### Two characters behind a piece -/

variable {front back : Text}

/-- **Two characters are enough.** A piece with two characters behind it leads whatever follows
these, unless it opens a comment in vain. -/
theorem Piece.Leads.append_right {p : Piece} (h : p.Leads front) (hroom : 2 ≤ front.length)
    (hvain : ¬ p.OpensInVain front) : p.Leads (front ++ back) := by
  have hne : front ≠ [] := by
    rintro rfl
    simp at hroom
  apply h.of_overlooks
  constructor
  case run =>
    intro q _ hstops
    exact hstops.append_right hne
  case lineEnd =>
    intro _ hstops
    exact hstops.append_right hne
  case point =>
    intro hpoint hhead
    rw [List.head?_append_of_ne_nil _ hne] at hhead
    -- The point is the first of the two characters, so the second stops the run behind it.
    obtain ⟨rest, rfl⟩ := List.head?_eq_some_iff.1 hhead
    have hrest : rest ≠ [] := by
      rintro rfl
      simp at hroom
    exact (hpoint rfl).append_right hrest
  case mark =>
    intro htext _ hstar
    rw [List.head?_append_of_ne_nil _ hne] at hstar
    exact absurd ⟨htext, hstar⟩ hvain
  case stop =>
    intro _ hnil
    exact absurd hnil hne

/-- The piece at the front is the same with more text behind two characters. -/
theorem Piece.front_append_right {c : Char} {rest : Text}
    (hbarren : (Piece.front true c rest).1.barren = false)
    (hroom : 2 ≤ (Piece.front true c rest).2.length) (more : Text) :
    Piece.front true c (rest ++ more) =
      ((Piece.front true c rest).1, (Piece.front true c rest).2 ++ more) := by
  -- By `front_of_leads` it is enough that the piece leads the longer text as well.
  have htext := text_append_front true c rest
  have hvain := barren_front_iff.not.1 (Bool.eq_false_iff.1 hbarren)
  have hleads : (Piece.front true c rest).1.unmarked.Leads (Piece.front true c rest).2 :=
    leads_front (by simp)
  have hlonger : (Piece.front true c (rest ++ more)).1.barren = true ↔
      (Piece.front true c (rest ++ more)).1.OpensInVain (Piece.front true c (rest ++ more)).2 :=
    barren_front_iff
  generalize Piece.front true c rest = found at *
  obtain ⟨piece, behind⟩ := found
  rw [unmarked_of_barren_eq_false hbarren] at hleads
  have heq : piece.text ++ (behind ++ more) = c :: (rest ++ more) := by
    rw [← List.append_assoc, htext, List.cons_append]
  obtain ⟨hpiece, hbehind⟩ := front_of_leads (hleads.append_right hroom hvain) heq
  -- No comment is opened in vain: the piece is the same, and so is the character behind it.
  have hsame : (Piece.front true c (rest ++ more)).1.barren = false := by
    have hbehind_ne : behind ≠ [] := by
      rintro rfl
      simp at hroom
    refine Bool.eq_false_iff.2 (mt hlonger.1 ?_)
    rintro ⟨hslash, hstar⟩
    rw [hbehind, List.head?_append_of_ne_nil _ hbehind_ne] at hstar
    rw [← text_unmarked, hpiece] at hslash
    exact hvain ⟨hslash, hstar⟩
  rw [unmarked_of_barren_eq_false hsame] at hpiece
  exact Prod.ext hpiece hbehind

/-! ### A source with more text behind it -/

namespace Cursor

variable {c after : Cursor} {s : Step}

/-- A cursor that stands where it stood, in a source that goes on. -/
def extend (c : Cursor) (more : Text) : Cursor := { c with rest := c.rest ++ more }

/-- **A step.** As long as no search has failed, a step with two characters behind it is the same
in a source that goes on. -/
theorem next?_extend (hn : c.next? = some (s, after)) (hmemory : c.barrenFrom = none)
    (hbarren : s.piece.barren = false) (hroom : 2 ≤ after.rest.length) (more : Text) :
    (c.extend more).next? = some (s, after.extend more) ∧ after.barrenFrom = none := by
  obtain ⟨first, rest, hrest, rfl, rfl⟩ := exists_of_next?_eq_some hn
  have hsearches : c.searches = true := by simp only [searches, hmemory]
  have hlonger : (c.extend more).searches = true := hsearches
  have hmore : (c.extend more).rest = first :: (rest ++ more) := by
    rw [extend, hrest, List.cons_append]
  rw [hsearches] at hbarren hroom ⊢
  have hfront := Piece.front_append_right hbarren hroom more
  constructor
  · rw [next?, hmore]
    simp only [hlonger, hfront]
    rfl
  · rw [Cursor.after, hbarren]
    exact hmemory

/-- The steps to the end of the source pass over all that is left of it. -/
theorem passed_steps (c : Cursor) : passed c.steps = c.rest := by
  induction c using run_induction with
  | stop c hn => rw [steps_of_next?_eq_none hn, rest_of_next?_eq_none hn, passed_nil]
  | next c s after hn ih =>
    rw [steps_of_next?_eq_some hn, passed_cons, ih, text_append_rest hn]

/-- **A run.** As long as no search fails, the first steps are the same in a source that goes on,
up to one with two characters behind it. -/
theorem isPrefix_steps_extend {done left : List Step} (hsteps : c.steps = done ++ left)
    (hmemory : c.barrenFrom = none) (hbarren : ∀ s ∈ done, s.piece.barren = false)
    (hroom : 2 ≤ (passed left).length) (more : Text) : done <+: (c.extend more).steps := by
  induction done generalizing c with
  | nil => exact List.nil_prefix
  | cons s done ih =>
    obtain ⟨hs, hdone⟩ := List.forall_mem_cons.1 hbarren
    cases hn : c.next? with
    | none =>
      rw [steps_of_next?_eq_none hn] at hsteps
      contradiction
    | some found =>
      obtain ⟨s', after⟩ := found
      rw [steps_of_next?_eq_some hn, List.cons_append] at hsteps
      obtain ⟨rfl, hafter⟩ := List.cons.inj hsteps
      -- The room behind the last step is also behind this one.
      have hbehind : 2 ≤ after.rest.length := by
        rw [← passed_steps after, hafter, passed_append, List.length_append]
        omega
      obtain ⟨hnext, hkept⟩ := next?_extend hn hmemory hs hbehind more
      rw [steps_of_next?_eq_some hnext]
      exact List.cons_prefix_cons.2 ⟨rfl, ih hafter hkept hdone⟩

end Cursor

/-! ### Firm steps -/

/-- **Firm steps.** A step of the scan of a source is firm if it begins before the slash of any
search that fails, and two characters or more of the source are behind it. -/
structure Step.IsFirm (source : Text) (s : Step) : Prop where
  beforeSearch : ∀ slash ∈ (scan source).steps, slash.piece.barren = true → s.offset < slash.offset
  room : ∃ front behind, source = front ++ (s.piece.text ++ behind) ∧
    s.offset = utf8Length front ∧ 2 ≤ behind.length

variable {source : Text} {done more : List Step} {s : Step}

/-- A step is firm if no search has failed up to it, and two characters are left to the steps
behind it. -/
theorem isFirm_iff (h : (scan source).steps = done ++ s :: more) :
    s.IsFirm source ↔
      (∀ d ∈ done ++ [s], d.piece.barren = false) ∧ 2 ≤ (passed more).length := by
  obtain ⟨htext, hoffset, -, -⟩ := of_steps_scan_eq h
  constructor
  · rintro ⟨hbefore, front, behind, hsource, hfront, hroom⟩
    constructor
    · intro d hd
      by_contra hbarren
      have hmem : d ∈ (scan source).steps := by
        rw [h, List.append_cons]
        exact List.mem_append_left _ hd
      have hlt : s.offset < d.offset := hbefore d hmem (by simpa using hbarren)
      rcases List.mem_append.1 hd with hdone | hself
      · obtain ⟨first, between, rfl⟩ := List.append_of_mem hdone
        rw [List.append_assoc, List.cons_append] at h
        have hgt : d.offset < s.offset := (endsBefore_of_mem h (by simp)).offset_lt
        omega
      · rw [List.mem_singleton.1 hself] at hlt
        exact absurd hlt (lt_irrefl _)
    · obtain ⟨-, hbehind⟩ := eq_of_utf8Length_eq (htext.trans hsource) (hoffset.symm.trans hfront)
      rwa [(List.append_cancel_left hbehind)]
  · rintro ⟨hbarren, hroom⟩
    refine ⟨?_, passed done, passed more, htext.symm, hoffset, hroom⟩
    intro slash hslash hsearch
    rw [h, List.append_cons, List.mem_append] at hslash
    rcases hslash with hearly | hlater
    · rw [hbarren slash hearly] at hsearch
      contradiction
    · exact (endsBefore_of_mem h hlater).offset_lt

/-- The steps in front of a firm one are firm. -/
theorem Step.IsFirm.of_mem (hs : s.IsFirm source) (h : (scan source).steps = done ++ s :: more)
    {d : Step} (hd : d ∈ done) : d.IsFirm source := by
  obtain ⟨hbarren, hroom⟩ := (isFirm_iff h).1 hs
  obtain ⟨first, between, rfl⟩ := List.append_of_mem hd
  rw [List.append_assoc, List.cons_append] at h
  refine (isFirm_iff h).2 ⟨?_, ?_⟩
  · intro e he
    refine hbarren e (List.mem_append_left _ ?_)
    rw [List.append_cons]
    exact List.mem_append_left _ he
  · rw [passed_append, passed_cons, List.length_append, List.length_append]
    omega

/-- What holds of all that is in front of what it holds of, holds of the front part of a list. -/
theorem exists_append_of_closed {α : Type} {p : α → Prop} {l : List α}
    (h : ∀ before a behind, l = before ++ a :: behind → p a → ∀ b ∈ before, p b) :
    ∃ holds left, l = holds ++ left ∧ ∀ a ∈ l, (a ∈ holds ↔ p a) := by
  induction l with
  | nil => exact ⟨[], [], rfl, by simp⟩
  | cons x l ih =>
    by_cases hx : p x
    · have hl : ∀ before a behind, l = before ++ a :: behind → p a → ∀ b ∈ before, p b := by
        intro before a behind heq ha b hb
        exact h (x :: before) a behind (congrArg (x :: ·) heq) ha b (List.mem_cons_of_mem _ hb)
      obtain ⟨holds, left, rfl, hholds⟩ := ih hl
      refine ⟨x :: holds, left, rfl, List.forall_mem_cons.2 ⟨by simp [hx], ?_⟩⟩
      intro a ha
      rw [List.mem_cons, hholds a ha, or_iff_right_iff_imp]
      rintro rfl
      exact hx
    · refine ⟨[], x :: l, rfl, ?_⟩
      intro a ha
      simp only [List.not_mem_nil, false_iff]
      intro hpa
      rcases List.mem_cons.1 ha with rfl | hbehind
      · exact hx hpa
      · obtain ⟨before, behind, rfl⟩ := List.append_of_mem hbehind
        exact hx (h (x :: before) a behind rfl hpa x (by simp))

/-- The firm steps of a source begin the scan of every source that goes on behind it. -/
theorem isPrefix_steps_append {firm left : List Step} (h : (scan source).steps = firm ++ left)
    (hfirm : ∀ s ∈ firm, s.IsFirm source) (behind : Text) :
    firm <+: (scan (source ++ behind)).steps := by
  rcases List.eq_nil_or_concat' firm with rfl | ⟨init, last, rfl⟩
  · exact List.nil_prefix
  · -- The last firm step tells of all the others.
    have hsteps : (scan source).steps = init ++ last :: left := by
      rw [h, List.append_assoc, List.singleton_append]
    obtain ⟨hbarren, hroom⟩ := (isFirm_iff hsteps).1 (hfirm last (by simp))
    exact Cursor.isPrefix_steps_extend (c := .start source) h rfl hbarren hroom behind

/-- **Two characters of lookahead.** The firm steps of a source are steps of every source that goes
on behind it, each with the same offset, line and piece. They come first in both scans, so their
tokens and errors come first among the tokens and errors of both. -/
theorem scan_append_of_isFirm (source more : Text) :
    (∀ s ∈ (scan source).steps, s.IsFirm source → s ∈ (scan (source ++ more)).steps) ∧
      ∃ firm : List Step, (∀ s ∈ (scan source).steps, (s ∈ firm ↔ s.IsFirm source)) ∧
        (firm <+: (scan source).steps ∧ firm <+: (scan (source ++ more)).steps) ∧
        (firm.filterMap Step.token? <+: (scan source).tokens ∧
          firm.filterMap Step.token? <+: (scan (source ++ more)).tokens) ∧
        (firm.filterMap Step.error? <+: (scan source).errors ∧
          firm.filterMap Step.error? <+: (scan (source ++ more)).errors) := by
  obtain ⟨firm, left, hsteps, hfirm⟩ :
      ∃ firm left, (scan source).steps = firm ++ left ∧
        ∀ s ∈ (scan source).steps, (s ∈ firm ↔ s.IsFirm source) :=
    exists_append_of_closed fun _ _ _ h hs _ hd => hs.of_mem h hd
  have hshort : firm <+: (scan source).steps := ⟨left, hsteps.symm⟩
  have hlong : firm <+: (scan (source ++ more)).steps := by
    refine isPrefix_steps_append hsteps ?_ more
    intro s hs
    exact (hfirm s (hshort.subset hs)).1 hs
  -- What steps yield, they yield in their order.
  have htokens : ∀ t : Text, firm <+: (scan t).steps →
      firm.filterMap Step.token? <+: (scan t).tokens := by
    intro t ht
    exact (ht.filterMap Step.token?).trans (List.prefix_append ..)
  refine ⟨?_, firm, hfirm, ⟨hshort, hlong⟩, ⟨htokens _ hshort, htokens _ hlong⟩,
    hshort.filterMap Step.error?, hlong.filterMap Step.error?⟩
  intro s hs hsfirm
  exact hlong.subset ((hfirm s hs).2 hsfirm)

/-- One character is not enough: a number with a point behind it may go on. -/
example : ∃ s ∈ (scan "1.".toList).steps, s ∉ (scan ("1.".toList ++ "5".toList)).steps := by
  decide +kernel

end LoxLex
