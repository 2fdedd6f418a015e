import UnitCalc.Text.Lines

/-!
# Lines of a text

How a text divides into lines, said without cutting it: a line goes up to the next line
feed, less one carriage return before that, and what stands after the last line feed is
a line if it is anything at all. Every text divides in one way only, and a text whose
last line is ended divides apart from what follows it.
-/

namespace UnitCalc.Text

/-- The text consists of the lines. -/
inductive Divided : List Char → List (List Char) → Prop
  | empty : Divided [] []
  | unended {line : List Char} (hline : line ≠ []) (hfeed : '\n' ∉ line) : Divided line [line]
  | feed {line rest : List Char} {lines : List (List Char)} (hfeed : '\n' ∉ line)
      (hreturn : line.getLast? ≠ some '\r') (h : Divided rest lines) :
      Divided (line ++ '\n' :: rest) (line :: lines)
  | returnFeed {line rest : List Char} {lines : List (List Char)} (hfeed : '\n' ∉ line)
      (h : Divided rest lines) : Divided (line ++ '\r' :: '\n' :: rest) (line :: lines)

/-- Nothing of the text stands after its last line feed. -/
def Ended (cs : List Char) : Prop := cs = [] ∨ ∃ ds, cs = ds ++ ['\n']

variable {line rest cs ds : List Char} {lines later : List (List Char)}

/-! ## Cutting -/

theorem cutLines_of_not_mem (hline : line ≠ []) (hfeed : '\n' ∉ line) : cutLines line = [line] := by
  induction line with
  | nil => exact absurd rfl hline
  | cons c cs ih =>
      have hc : c ≠ '\n' := fun h => hfeed (h ▸ List.mem_cons_self)
      have hcs : '\n' ∉ cs := fun h => hfeed (List.mem_cons_of_mem c h)
      rw [cutLines, if_neg hc]
      cases cs with
      | nil => rfl
      | cons d ds => rw [ih (List.cons_ne_nil d ds) hcs]

theorem cutLines_append_feed (hfeed : '\n' ∉ line) (rest : List Char) :
    cutLines (line ++ '\n' :: rest) = (line ++ ['\n']) :: cutLines rest := by
  induction line with
  | nil => rw [List.nil_append, cutLines, if_pos rfl, List.nil_append]
  | cons c cs ih =>
      have hc : c ≠ '\n' := fun h => hfeed (h ▸ List.mem_cons_self)
      have hcs : '\n' ∉ cs := fun h => hfeed (List.mem_cons_of_mem c h)
      rw [List.cons_append, cutLines, if_neg hc, ih hcs, List.cons_append]

theorem withoutTerminator_of_not_mem (hfeed : '\n' ∉ line) : withoutTerminator line = line := by
  have hlast : ∀ cs, line.reverse ≠ '\n' :: cs := by
    intro cs h
    exact hfeed (List.mem_reverse.mp (h ▸ List.mem_cons_self))
  unfold withoutTerminator
  split
  · next h => exact absurd h (hlast _)
  · next h => exact absurd h (hlast _)
  · rfl

theorem withoutTerminator_returnFeed (line : List Char) :
    withoutTerminator (line ++ ['\r', '\n']) = line := by
  rw [withoutTerminator, List.reverse_append]
  exact List.reverse_reverse line

theorem withoutTerminator_feed (hreturn : line.getLast? ≠ some '\r') :
    withoutTerminator (line ++ ['\n']) = line := by
  have hreverse : (line ++ ['\n']).reverse = '\n' :: line.reverse := List.reverse_append
  unfold withoutTerminator
  rw [hreverse]
  split
  · next h =>
      have hlast : line.reverse.head? = some '\r' := by
        rw [(List.cons.inj h).2, List.head?_cons]
      exact absurd (List.head?_reverse.symm.trans hlast) hreturn
  · next h => rw [← (List.cons.inj h).2, List.reverse_reverse]
  · next h => exact absurd rfl (h line.reverse)

/-! ## Division -/

theorem Divided.eq_cutLines (h : Divided cs lines) :
    lines = (cutLines cs).map withoutTerminator := by
  induction h with
  | empty => rfl
  | unended hline hfeed =>
      rw [cutLines_of_not_mem hline hfeed, List.map_singleton, withoutTerminator_of_not_mem hfeed]
  | feed hfeed hreturn _ ih =>
      rw [cutLines_append_feed hfeed, List.map_cons, withoutTerminator_feed hreturn, ← ih]
  | @returnFeed line rest lines hfeed _ ih =>
      have hreturned : '\n' ∉ line ++ ['\r'] := by simp [hfeed]
      have hcut : cutLines (line ++ '\r' :: '\n' :: rest) =
          (line ++ ['\r', '\n']) :: cutLines rest := by
        simpa using cutLines_append_feed hreturned rest
      rw [hcut, List.map_cons, withoutTerminator_returnFeed, ← ih]

/-- One more character at the front of a text is at the front of its first line, unless
it ends a line or comes before a line feed. -/
theorem Divided.cons (h : Divided cs lines) (c : Char) : ∃ lines', Divided (c :: cs) lines' := by
  by_cases hc : c = '\n'
  · subst hc
    exact ⟨[] :: lines, .feed List.not_mem_nil (Option.some_ne_none '\r').symm h⟩
  · have hmem : ∀ {line : List Char}, '\n' ∉ line → '\n' ∉ c :: line := by
      intro line hfeed h
      rcases List.mem_cons.mp h with h | h
      · exact hc h.symm
      · exact hfeed h
    cases h with
    | empty => exact ⟨[[c]], .unended (List.cons_ne_nil c []) (hmem List.not_mem_nil)⟩
    | unended _ hfeed => exact ⟨[c :: cs], .unended (List.cons_ne_nil c cs) (hmem hfeed)⟩
    | returnFeed hfeed h => exact ⟨_, .returnFeed (hmem hfeed) h⟩
    | @feed line rest lines hfeed hreturn h =>
        cases line with
        | nil =>
            -- right before the line feed a carriage return belongs to the end of the line
            by_cases hr : c = '\r'
            · subst hr
              exact ⟨[] :: lines, .returnFeed List.not_mem_nil h⟩
            · exact ⟨[c] :: lines, .feed (hmem hfeed) (fun h => hr (Option.some.inj h)) h⟩
        | cons d ds => exact ⟨_, .feed (hmem hfeed) hreturn h⟩

theorem exists_divided (cs : List Char) : ∃ lines, Divided cs lines := by
  induction cs with
  | nil => exact ⟨[], .empty⟩
  | cons c cs ih =>
      obtain ⟨lines, h⟩ := ih
      exact h.cons c

theorem divided_iff : Divided cs lines ↔ lines = (cutLines cs).map withoutTerminator := by
  constructor
  · exact Divided.eq_cutLines
  · intro h
    obtain ⟨found, hfound⟩ := exists_divided cs
    rw [h, ← hfound.eq_cutLines]
    exact hfound

/-- **Every text has its lines and no others.** -/
theorem divided_iff_eq_lines {s : String} {lines : List String} :
    Divided s.toList (lines.map String.toList) ↔ lines = Text.lines s := by
  have hlines : (Text.lines s).map String.toList = (cutLines s.toList).map withoutTerminator := by
    simp [Text.lines]
  rw [divided_iff, ← hlines]
  exact List.map_inj_right fun _ _ => String.toList_inj.mp

/-! ## Texts in two parts -/

theorem Ended.of_append_feed (h : Ended (line ++ '\n' :: rest)) : Ended rest := by
  rcases h with h | ⟨ds, h⟩
  · simp at h
  · rcases List.eq_nil_or_concat rest with rfl | ⟨front, c, rfl⟩
    · exact .inl rfl
    · have hsplit : (line ++ '\n' :: front) ++ [c] = ds ++ ['\n'] := by
        rw [← h, List.concat_eq_append, List.append_assoc, List.cons_append]
      have hlast : [c] = ['\n'] := List.append_inj_right' hsplit rfl
      exact .inr ⟨front, by rw [List.concat_eq_append, hlast]⟩

/-- After an ended text another one starts on a line of its own. -/
theorem Divided.append (h : Divided cs lines) (hcs : Ended cs) (hds : Divided ds later) :
    Divided (cs ++ ds) (lines ++ later) := by
  induction h with
  | empty => exact hds
  | unended hline hfeed =>
      rcases hcs with rfl | ⟨front, rfl⟩
      · exact absurd rfl hline
      · -- the line feed that ends the text would be part of the line
        simp at hfeed
  | feed hfeed hreturn _ ih =>
      rw [List.append_assoc, List.cons_append]
      exact .feed hfeed hreturn (ih hcs.of_append_feed)
  | @returnFeed line rest lines hfeed _ ih =>
      have hrest : Ended rest := by
        rw [← List.singleton_append (x := '\r'), ← List.append_assoc] at hcs
        exact hcs.of_append_feed
      rw [List.append_assoc]
      exact .returnFeed hfeed (ih hrest)

theorem lines_append {a : String} (h : a = "" ∨ ∃ s, a = s ++ "\n") (b : String) :
    Text.lines (a ++ b) = Text.lines a ++ Text.lines b := by
  have hended : Ended a.toList := by
    rcases h with rfl | ⟨s, rfl⟩
    · exact .inl rfl
    · exact .inr ⟨s.toList, String.toList_append⟩
  refine (divided_iff_eq_lines.mp ?_).symm
  rw [String.toList_append, List.map_append]
  exact (divided_iff_eq_lines.mpr rfl).append hended (divided_iff_eq_lines.mpr rfl)

end UnitCalc.Text
