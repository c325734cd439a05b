import Infernode.Bridge.Wire

/-!
# The reply of a model

The response is a line that says why the model stopped, a line for each tool call and then
the text, with nothing between the last call and the text. The reader takes for calls the
lines that begin as one up to the first that does not.
-/

namespace Infernode.Bridge

open Limbo

def stopline (reason : Str) : Str :=
  if reason = lit "tool_use" ∨ reason = lit "tool_calls" then lit "STOP:tool_use\n"
  else if reason = lit "max_tokens" ∨ reason = lit "length" then lit "STOP:max_tokens\n"
  else if reason = lit "refusal" then lit "STOP:refusal\n"
  else lit "STOP:end_turn\n"

def joinlines (lines : List Str) : Str := ['\n'].intercalate lines

def toolline (call : Str × Str × Str) : Str := encodetool call.1 call.2.1 call.2.2

def response (reason : Str) (calls : List (Str × Str × Str)) (text : Str) : Str :=
  stopline reason ++ joinlines (calls.map toolline) ++ (if calls = [] then [] else ['\n']) ++ text

def blank (c : Char) : Bool := c = ' ' ∨ c = '\t' ∨ c = '\n'

def strip (s : Str) : Str := (s.dropWhile blank).rdropWhile blank

def splitlines (s : Str) : List Str := s.splitOn '\n'

def addline (text line : Str) : Str := (if text = [] then [] else text ++ ['\n']) ++ line

def istool (line : Str) : Bool := prefixed line (lit "TOOL:")

def parsellmresponse (response : Str) : Str × List (Str × Str × Str) × Str :=
  if prefixed response (lit "STOP:") = false then ([], [], response)
  else
    match splitlines response with
    | [] => ([], [], [])
    | stop :: lines =>
      (if prefixed stop (lit "STOP:") then stop.drop 5 else [],
        (lines.takeWhile istool).map fun line => parsetoolline (line.drop 5),
        strip ((lines.dropWhile istool).foldl addline []))

variable {s t l : Str} {ls : List Str}

theorem joinlines_cons (l : Str) (ls : List Str) :
    joinlines (l :: ls) = l ++ ls.flatMap ('\n' :: ·) := by
  induction ls generalizing l with
  | nil => simp [joinlines, List.intercalate]
  | cons m ls ih =>
    have hrest := ih m
    simp only [joinlines, List.intercalate, List.intersperse_cons_cons, List.flatten_cons] at hrest ⊢
    rw [hrest, List.flatMap_cons]
    rfl

theorem joinlines_splitlines (s : Str) : joinlines (splitlines s) = s :=
  List.intercalate_splitOn '\n'

theorem flatMap_line (ls : List Str) :
    ls.flatMap ('\n' :: ·) ++ ['\n'] = '\n' :: ls.flatMap (· ++ ['\n']) := by
  induction ls with
  | nil => rfl
  | cons l ls ih => simp only [List.flatMap_cons, List.append_assoc, ih]; simp

theorem joinlines_end (hls : ls ≠ []) : joinlines ls ++ ['\n'] = ls.flatMap (· ++ ['\n']) := by
  cases ls with
  | nil => exact absurd rfl hls
  | cons l ls => rw [joinlines_cons, List.append_assoc, flatMap_line]; simp

theorem splitlines_cons (hl : '\n' ∉ l) (t : Str) :
    splitlines (l ++ '\n' :: t) = l :: splitlines t :=
  List.splitOn_append_cons_self_of_not_mem hl t

theorem splitlines_append (hls : ∀ l ∈ ls, '\n' ∉ l) (t : Str) :
    splitlines (ls.flatMap (· ++ ['\n']) ++ t) = ls ++ splitlines t := by
  induction ls with
  | nil => rfl
  | cons l ls ih =>
    have hrest := ih fun m hm => hls m (List.mem_cons_of_mem l hm)
    rw [List.flatMap_cons, List.append_assoc, List.append_assoc, List.singleton_append,
      splitlines_cons (hls l List.mem_cons_self), hrest, List.cons_append]

theorem splitlines_first (s : Str) : ∃ l ls, splitlines s = l :: ls ∧ ∃ t, s = l ++ t := by
  cases hs : splitlines s with
  | nil => exact absurd hs (List.splitOn_ne_nil _ _)
  | cons l ls =>
    refine ⟨l, ls, rfl, ls.flatMap ('\n' :: ·), ?_⟩
    rw [← joinlines_cons, ← hs, joinlines_splitlines]

theorem addline_text (hs : s ≠ []) (ls : List Str) :
    ls.foldl addline s = s ++ ls.flatMap ('\n' :: ·) := by
  induction ls generalizing s with
  | nil => simp
  | cons l ls ih =>
    rw [List.foldl_cons, addline, if_neg hs, ih (by simp), List.flatMap_cons]
    simp

theorem foldl_addline (hls : ∀ l ∈ ls, '\n' ∉ l) :
    ls.foldl addline [] = (joinlines ls).dropWhile (· = '\n') := by
  induction ls with
  | nil => rfl
  | cons l ls ih =>
    have hrest := ih fun m hm => hls m (List.mem_cons_of_mem l hm)
    rw [List.foldl_cons, addline, if_pos rfl, List.nil_append, joinlines_cons]
    cases l with
    | nil =>
      rw [hrest, List.nil_append]
      cases ls with
      | nil => rfl
      | cons m ls => rw [joinlines_cons, List.flatMap_cons]; simp
    | cons c l =>
      have hc : ¬(c = '\n') := fun h => hls (c :: l) List.mem_cons_self (h ▸ List.mem_cons_self)
      rw [addline_text (List.cons_ne_nil c l), List.cons_append, List.dropWhile_cons,
        if_neg (by simpa using hc)]

theorem splitlines_mem (hl : l ∈ splitlines s) : '\n' ∉ l := by
  induction s generalizing l with
  | nil =>
    obtain rfl := List.mem_singleton.mp (show l ∈ [[]] from hl)
    exact List.not_mem_nil
  | cons c s ih =>
    obtain ⟨m, ms, hs, -⟩ := splitlines_first s
    have hcons := List.splitOn_cons_eq_if_modifyHead (a := '\n') c s
    rw [show s.splitOn '\n' = m :: ms from hs] at hcons
    rw [splitlines, hcons] at hl
    have hm := ih (l := m) (hs ▸ List.mem_cons_self)
    split_ifs at hl with hc
    · rcases List.mem_cons.mp hl with rfl | hl
      · exact List.not_mem_nil
      · exact ih (hs ▸ hl)
    · rw [List.modifyHead_cons] at hl
      rcases List.mem_cons.mp hl with rfl | hl
      · rw [List.mem_cons, not_or]
        exact ⟨fun h => hc (beq_iff_eq.mpr h.symm), hm⟩
      · exact ih (hs ▸ List.mem_cons_of_mem m hl)

theorem strip_lines (s : Str) : strip (s.dropWhile (· = '\n')) = strip s := by
  have hdrop : (s.dropWhile (· = '\n')).dropWhile blank = s.dropWhile blank := by
    induction s with
    | nil => rfl
    | cons c s ih =>
      by_cases hc : c = '\n'
      · subst hc
        rw [List.dropWhile_cons, if_pos (by decide), ih, List.dropWhile_cons, if_pos (by decide)]
      · rw [List.dropWhile_cons, if_neg (by simpa using hc)]
  rw [strip, hdrop, strip]

theorem stopline_line (reason : Str) :
    ∃ l, stopline reason = l ++ ['\n'] ∧ '\n' ∉ l ∧ prefixed l (lit "STOP:") = true := by
  rw [stopline]
  split_ifs
  · exact ⟨lit "STOP:tool_use", rfl, by decide, by decide⟩
  · exact ⟨lit "STOP:max_tokens", rfl, by decide, by decide⟩
  · exact ⟨lit "STOP:refusal", rfl, by decide, by decide⟩
  · exact ⟨lit "STOP:end_turn", rfl, by decide, by decide⟩

theorem response_eq (reason : Str) (calls : List (Str × Str × Str)) (text : Str) :
    response reason calls text =
      stopline reason ++ ((calls.map toolline).flatMap (· ++ ['\n']) ++ text) := by
  rw [response]
  cases calls with
  | nil => simp [joinlines, List.intercalate]
  | cons call calls =>
    rw [if_neg (List.cons_ne_nil _ _), ← joinlines_end (by simp)]
    simp only [List.append_assoc]

theorem parsellmresponse_response (reason : Str) (calls : List (Str × Str × Str)) {text : Str}
    (htext : prefixed text (lit "TOOL:") = false) :
    (parsellmresponse (response reason calls text)).2 = (calls, strip text) := by
  obtain ⟨stop, hstop, hline, hprefix⟩ := stopline_line reason
  have hlines : splitlines (response reason calls text) =
      stop :: (calls.map toolline ++ splitlines text) := by
    rw [response_eq, hstop, List.append_assoc, List.singleton_append, splitlines_cons hline,
      splitlines_append]
    intro l hl
    obtain ⟨call, -, rfl⟩ := List.mem_map.mp hl
    exact encodetool_line _ _ _
  have hfirst : prefixed (response reason calls text) (lit "STOP:") = true := by
    rw [response_eq, hstop, List.append_assoc]
    exact prefixed_append _ hprefix
  have htools : ∀ l ∈ calls.map toolline, istool l = true := by
    intro l hl
    obtain ⟨call, -, rfl⟩ := List.mem_map.mp hl
    exact encodetool_prefixed _ _ _
  obtain ⟨l, ls, htextlines, rest, hrest⟩ := splitlines_first text
  have hl : ¬istool l = true := by
    intro hl
    have hprefixed := prefixed_append rest hl
    rw [← hrest, htext] at hprefixed
    exact absurd hprefixed (by decide)
  rw [parsellmresponse, if_neg (by rw [hfirst]; decide), hlines]
  dsimp only
  rw [List.takeWhile_append_of_pos htools, List.dropWhile_append_of_pos htools, htextlines,
    List.takeWhile_cons_of_neg hl, List.dropWhile_cons_of_neg hl, List.append_nil, ← htextlines,
    foldl_addline fun l hl => splitlines_mem hl, joinlines_splitlines, strip_lines,
    List.map_map]
  have hcalls : ((fun line : Str => parsetoolline (line.drop 5)) ∘ toolline) = id :=
    funext fun call => parsetoolline_encodetool _ _ _
  rw [hcalls, List.map_id]

end Infernode.Bridge
