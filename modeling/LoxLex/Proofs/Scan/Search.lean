import LoxLex.Scan.Log
import LoxLex.Proofs.Scan.Memory

/-! # Searches that fail

A slash in front of a star opens a comment in vain if it is taken as a piece: there is no close mark
further on. Only at the first such slash a search fails and leaves a mark, for what a scan keeps in
mind spares it the others. So the pieces of a source tell which of its steps bear a mark
(`map_piece_steps_scan`), and whether a search fails at all (`searchFails_scan_iff`). -/

namespace LoxLex

/-! ### What the log says -/

/-- Whether a scan looked for the end of a comment in vain, by its log. -/
def Scan.SearchFails (s : Scan) : Prop := ∃ line, LogEvent.unclosedComment line ∈ s.log

/-- The log of a scan holds the events of its trace. -/
theorem Scan.mem_log_iff {s : Scan} {e : LogEvent} : e ∈ s.log ↔ .event e ∈ s.trace := by
  have hevent : ∀ entry : Entry, entry.event? = some e ↔ entry = .event e := by
    intro entry
    cases entry <;> simp [Entry.event?]
  simp [log, hevent]

/-- A step logs a search that failed if its piece bears a mark. -/
theorem Step.mem_entries_unclosedComment {s : Step} {line : Nat} :
    Entry.event (.unclosedComment line) ∈ s.entries ↔ s.piece.barren = true ∧ line = s.line := by
  simp [Step.entries]

/-- What the log of a scan says of a search is what a step logs of it. -/
theorem Scan.mem_log_unclosedComment {s : Scan} {line : Nat} :
    LogEvent.unclosedComment line ∈ s.log ↔
      ∃ step ∈ s.steps, step.piece.barren = true ∧ line = step.line := by
  rw [mem_log_iff]
  simp [trace, Step.mem_entries_unclosedComment]

/-- A search fails where a step bears a mark. -/
theorem Scan.searchFails_iff {s : Scan} :
    s.SearchFails ↔ ∃ step ∈ s.steps, step.piece.barren = true := by
  constructor
  · rintro ⟨line, h⟩
    obtain ⟨step, hstep, hbarren, -⟩ := Scan.mem_log_unclosedComment.1 h
    exact ⟨step, hstep, hbarren⟩
  · rintro ⟨step, hstep, hbarren⟩
    exact ⟨step.line, Scan.mem_log_unclosedComment.2 ⟨step, hstep, hbarren, rfl⟩⟩

/-- Whether a search of a scan fails can be read off its steps. -/
instance (s : Scan) : Decidable s.SearchFails := decidable_of_iff _ Scan.searchFails_iff.symm

/-! ### Comments that are opened in vain -/

namespace Piece

/-- Whether a piece is a slash and a star follows it. -/
def OpensInVain (p : Piece) (behind : Text) : Prop := p.text = ['/'] ∧ behind.head? = some '*'

/-- Whether a piece opens a comment in vain can be read off its text and the next character. -/
instance (p : Piece) (behind : Text) : Decidable (p.OpensInVain behind) :=
  inferInstanceAs (Decidable (_ ∧ _))

variable {c : Char} {rest : Text} {search : Bool}

/-- A piece that is a slash is what begins with a slash. -/
theorem eq_of_text_front_eq_slash (h : (front search c rest).1.text = ['/']) :
    c = '/' ∧ (front search c rest).2 = rest := by
  have heq := text_append_front search c rest
  rw [h] at heq
  obtain ⟨hc, hrest⟩ := List.cons.inj heq
  exact ⟨hc.symm, hrest⟩

/-- A search is made, and fails, where a slash is taken in front of a star. -/
theorem barren_slash_iff :
    (slash true rest).1.barren = true ↔ (slash true rest).1.OpensInVain (slash true rest).2 := by
  unfold slash
  split
  · simp [OpensInVain]
  next behind =>
    cases hend : closeEnd? ('*' :: behind) with
    | none => simp [OpensInVain]
    | some n =>
      -- What is found closes at its end, so it is not empty.
      have hcloses := closesAtEnd_of_closeEnd?_eq_some hend
      cases n with
      | zero => simp [ClosesAtEnd, closeMark] at hcloses
      | succ n => simp [OpensInVain]
  next hstar =>
    have hhead : rest.head? ≠ some '*' := by
      intro h
      obtain ⟨behind, rfl⟩ := List.head?_eq_some_iff.1 h
      exact hstar behind rfl
    simp [single, OpensInVain, hhead]

/-- With a search, a piece bears a mark if it opens a comment in vain. -/
theorem barren_front_iff :
    (front true c rest).1.barren = true ↔
      (front true c rest).1.OpensInVain (front true c rest).2 := by
  by_cases htext : (front true c rest).1.text = ['/']
  · obtain ⟨rfl, -⟩ := eq_of_text_front_eq_slash htext
    exact barren_slash_iff
  · constructor
    · intro h
      exact absurd (of_barren_front h).1 htext
    · intro h
      exact absurd h.1 htext

/-- Without a search no piece bears a mark. -/
theorem barren_front_false : (front false c rest).1.barren = false := by
  cases hbarren : (front false c rest).1.barren with
  | false => rfl
  | true =>
    obtain ⟨rfl, -⟩ := eq_of_text_front_eq_slash (of_barren_front hbarren).1
    rw [front_slash] at hbarren
    unfold slash at hbarren
    split at hbarren <;> contradiction

/-- A comment that is opened in vain has no close mark. -/
theorem Leads.not_closeMark_infix_behind {p : Piece} {behind : Text} (h : p.Leads behind)
    (hvain : p.OpensInVain behind) : ¬ closeMark <:+: behind := by
  have heq : p.text ++ behind = '/' :: behind := by rw [hvain.1]; rfl
  obtain ⟨hpiece, hbehind⟩ := front_of_leads h heq
  -- The search for a close mark would leave a mark on the piece, so it fails.
  have hbarren : (front true '/' behind).1.barren = true := by
    apply barren_front_iff.2
    rw [OpensInVain, ← text_unmarked, hpiece, hbehind]
    exact hvain
  have hnone := (of_barren_front hbarren).2
  rwa [hbehind] at hnone

/-- A piece without a mark is the same without it. -/
theorem unmarked_of_barren_eq_false {p : Piece} (h : p.barren = false) : p.unmarked = p := by
  rw [unmarked, ← h]

end Piece

/-- The pieces of a source with a mark on the first that opens a comment in vain. -/
def marked : List Piece → List Piece
  | [] => []
  | p :: ps =>
    if p.OpensInVain (joined ps) then { p with barren := true } :: ps else p :: marked ps

/-- Whether none of some consecutive pieces opens a comment in vain. -/
def Settled : List Piece → Prop
  | [] => True
  | p :: ps => ¬ p.OpensInVain (joined ps) ∧ Settled ps

/-! ### The steps that bear a mark -/

namespace Cursor

variable {source before : Text} {c : Cursor}

/-- The pieces that are left are the one at the front and those behind it. -/
theorem StandsBehind.pieces_rest_eq (h : StandsBehind source before c) {s : Step} {after : Cursor}
    (hn : c.next? = some (s, after)) (hbarren : s.piece.barren = false) :
    pieces c.rest = s.piece :: pieces after.rest := by
  rw [h.pieces_rest hn, Piece.unmarked_of_barren_eq_false hbarren]

/-- Once a search has failed, no step bears a mark. -/
theorem StandsBehind.map_piece_steps_of_memory (h : StandsBehind source before c) {f : Nat}
    (hf : c.barrenFrom = some f) : c.steps.map Step.piece = pieces c.rest := by
  induction c using run_induction generalizing before with
  | stop c hn => rw [steps_of_next?_eq_none hn, rest_of_next?_eq_none hn, pieces_nil, List.map_nil]
  | next c s after hn ih =>
    obtain ⟨first, rest, -, hs, hafter⟩ := exists_of_next?_eq_some hn
    have hsearches : c.searches = false := by
      have hle : f ≤ c.offset := (h.memory_true hf).1
      simp only [searches, hf, decide_eq_false_iff_not]
      omega
    rw [hsearches] at hs hafter
    have hbarren : s.piece.barren = false := by
      rw [hs]
      exact Piece.barren_front_false
    have hmemory : after.barrenFrom = some f := by
      rw [hafter, Cursor.after, Piece.barren_front_false]
      exact hf
    rw [steps_of_next?_eq_some hn, h.pieces_rest_eq hn hbarren, List.map_cons,
      ih (h.next hn) hmemory]

/-- As long as no search has failed, the next that fails leaves a mark. -/
theorem StandsBehind.map_piece_steps (h : StandsBehind source before c)
    (hf : c.barrenFrom = none) : c.steps.map Step.piece = marked (pieces c.rest) := by
  induction c using run_induction generalizing before with
  | stop c hn =>
    rw [steps_of_next?_eq_none hn, rest_of_next?_eq_none hn, pieces_nil]
    rfl
  | next c s after hn ih =>
    have hafterwards : StandsBehind source (before ++ s.piece.text) after := h.next hn
    obtain ⟨first, rest, hrest, hs, hafter⟩ := exists_of_next?_eq_some hn
    have hsearches : c.searches = true := by simp only [searches, hf]
    rw [hsearches] at hs hafter
    have hpiece : s.piece = (Piece.front true first rest).1 := by rw [hs]
    have hbehind : after.rest = (Piece.front true first rest).2 := by rw [hafter]; rfl
    have hmark : s.piece.barren = true ↔ s.piece.OpensInVain after.rest := by
      rw [hpiece, hbehind]
      exact Piece.barren_front_iff
    rw [steps_of_next?_eq_some hn, List.map_cons]
    cases hbarren : s.piece.barren with
    | true =>
      -- The search fails here: this piece bears the mark, and it is kept in mind.
      have hvain : s.piece.unmarked.OpensInVain (joined (pieces after.rest)) := by
        rw [joined_pieces]
        exact hmark.1 hbarren
      have hmemory : after.barrenFrom = some (c.offset + 1) := by
        rw [hafter, Cursor.after, ← hpiece, hbarren]
        rfl
      have hmarked : { s.piece.unmarked with barren := true } = s.piece := by
        rw [← hbarren]
        rfl
      rw [h.pieces_rest hn, marked, if_pos hvain, hmarked,
        hafterwards.map_piece_steps_of_memory hmemory]
    | false =>
      have hsettled : ¬ s.piece.OpensInVain (joined (pieces after.rest)) := by
        rw [joined_pieces, ← hmark, hbarren]
        exact Bool.false_ne_true
      have hmemory : after.barrenFrom = none := by
        rw [hafter, Cursor.after, ← hpiece, hbarren]
        exact hf
      rw [h.pieces_rest_eq hn hbarren, marked, if_neg hsettled, ih hafterwards hmemory]

end Cursor

/-- **The marks of a scan.** A scan takes the pieces of its source, and the first that opens a
comment in vain bears a mark. -/
theorem map_piece_steps_scan (source : Text) :
    (scan source).steps.map Step.piece = marked (pieces source) :=
  (Cursor.standsBehind_start source).map_piece_steps rfl

/-! ### Whether a search fails -/

/-- Pieces as such bear no mark. -/
theorem barren_of_mem_pieces {source : Text} {p : Piece} (h : p ∈ pieces source) :
    p.barren = false := by
  induction source using pieces.induct with
  | case1 => simp at h
  | case2 c rest ih =>
    rw [pieces_cons, List.mem_cons] at h
    rcases h with rfl | h
    · rfl
    · exact ih h

/-- A mark is set if a piece opens a comment in vain. -/
theorem exists_barren_marked_iff {ps : List Piece} (h : ∀ p ∈ ps, p.barren = false) :
    (∃ p ∈ marked ps, p.barren = true) ↔ ¬ Settled ps := by
  induction ps with
  | nil => simp [marked, Settled]
  | cons p ps ih =>
    obtain ⟨hp, hps⟩ := List.forall_mem_cons.1 h
    by_cases hvain : p.OpensInVain (joined ps)
    · simp [marked, Settled, hvain]
    · simp [marked, Settled, hvain, hp, ih hps]

/-- **Whether a search fails.** In the scan of a source a search fails if a piece of the source
opens a comment in vain. -/
theorem searchFails_scan_iff (source : Text) :
    (scan source).SearchFails ↔ ¬ Settled (pieces source) := by
  rw [Scan.searchFails_iff, ← exists_barren_marked_iff fun _ => barren_of_mem_pieces,
    ← map_piece_steps_scan]
  simp

end LoxLex
