import Infernode.Bridge.Reply

/-!
# The results of tool calls

The results go back as entries of lines: the id of the call, the content, and a line of three
dashes. A line of the content that is all dashes is sent with one more. The reader takes
carriage returns off a line before it looks for dashes, the writer does not.
-/

namespace Infernode.Bridge

open Limbo

def alldashes (s : Str) : Bool := s.all (· = '-')

def escapedashline (line : Str) : Str :=
  if 3 ≤ line.length ∧ alldashes line then '-' :: line else line

def escapedashes (s : Str) : Str := joinlines ((splitlines s).map escapedashline)

def buildtoolresults (results : List (Str × Str)) : Str :=
  lit "TOOL_RESULTS\n" ++ results.flatMap fun r =>
    r.1 ++ lit "\n" ++ escapedashes r.2 ++ lit "\n---\n"

namespace Llmclient

def splitlines (s : Str) : List Str :=
  let lines := s.splitOn '\n'
  if lines.getLast? = some [] then lines.dropLast else lines

def blank (c : Char) : Bool := c = ' ' ∨ c = '\t' ∨ c = '\n' ∨ c = '\r'

def strip (s : Str) : Str := (s.dropWhile blank).rdropWhile blank

def stripnl (s : Str) : Str := s.rdropWhile fun c => c = '\n' ∨ c = '\r'

/-- The id of an entry; that of the user's text, `-`, is none. -/
def tooluseid (line : Str) : Str := if strip line = lit "-" then [] else strip line

def contentline (line : Str) : Str :=
  if 3 < (stripnl line).length ∧ alldashes (stripnl line) then line.drop 1 else line

def content (lines : List Str) : Str := (joinlines lines).rdropWhile (· = '\n')

mutual

def entries : List Str → List (Str × Str)
  | [] => []
  | line :: lines =>
    if line = [] ∨ line = lit "\r" then entries lines
    else contents (tooluseid line) [] lines

def contents (id : Str) (taken : List Str) : List Str → List (Str × Str)
  | [] => [(id, content taken)]
  | line :: lines =>
    if stripnl line = lit "---" then (id, content taken) :: entries lines
    else contents id (taken ++ [contentline line]) lines

end

def parsetoolresults (text : Str) : Except Str (List (Str × Str)) :=
  match splitlines text with
  | [] => .error (lit "missing TOOL_RESULTS header")
  | header :: lines =>
    if header ≠ lit "TOOL_RESULTS" then .error (lit "missing TOOL_RESULTS header")
    else if entries lines = [] then .error (lit "TOOL_RESULTS contained no results")
    else .ok (entries lines)

end Llmclient

open Llmclient (stripnl contentline content tooluseid)

variable {id line : Str} {lines rest : List Str}

def Cutoff (line : Str) : Prop :=
  3 ≤ (stripnl line).length ∧ alldashes (stripnl line) = true ∧ stripnl line ≠ line

instance (line : Str) : Decidable (Cutoff line) := inferInstanceAs (Decidable (_ ∧ _ ∧ _))

theorem stripnl_alldashes (h : alldashes line = true) : stripnl line = line := by
  rw [stripnl, List.rdropWhile_eq_self_iff]
  intro hne hlast
  have hdash := List.all_eq_true.mp h _ (List.getLast_mem hne)
  rw [of_decide_eq_true hdash] at hlast
  exact absurd hlast (by decide)

theorem escapedashline_read (h : ¬Cutoff line) :
    stripnl (escapedashline line) ≠ lit "---" ∧ contentline (escapedashline line) = line := by
  rw [escapedashline]
  split_ifs with hdashes
  · obtain ⟨hlen, hdash⟩ := hdashes
    have hmore : alldashes ('-' :: line) = true := by
      rw [alldashes, List.all_cons, Bool.and_eq_true]
      exact ⟨by decide, hdash⟩
    rw [contentline, stripnl_alldashes hmore]
    refine ⟨fun hsame => ?_, ?_⟩
    · have hlength := congrArg List.length hsame
      rw [List.length_cons] at hlength
      have hthree : (lit "---").length = 3 := rfl
      omega
    · rw [if_pos ⟨by rw [List.length_cons]; omega, hmore⟩]
      rfl
  · refine ⟨fun hsame => ?_, ?_⟩
    · by_cases hline : stripnl line = line
      · rw [← hline, hsame] at hdashes
        exact hdashes (by decide)
      · exact h ⟨by rw [hsame]; decide, by rw [hsame]; decide, hline⟩
    · rw [contentline, if_neg]
      rintro ⟨hlen, hdash⟩
      by_cases hline : stripnl line = line
      · rw [hline] at hlen hdash
        exact hdashes ⟨hlen.le, hdash⟩
      · exact h ⟨hlen.le, hdash, hline⟩

theorem llmclient_splitlines (h : ∀ l ∈ lines, '\n' ∉ l) :
    Llmclient.splitlines (lines.flatMap (· ++ ['\n'])) = lines := by
  have hsplit := splitlines_append h []
  rw [List.append_nil] at hsplit
  have hlines : (lines.flatMap (· ++ ['\n'])).splitOn '\n' = lines ++ [[]] := hsplit
  rw [Llmclient.splitlines, hlines, List.getLast?_concat, if_pos rfl, List.dropLast_concat]

def entrylines (r : Str × Str) : List Str :=
  r.1 :: ((splitlines r.2).map escapedashline ++ [lit "---"])

theorem entrylines_eq (r : Str × Str) : (entrylines r).flatMap (· ++ ['\n']) =
    r.1 ++ lit "\n" ++ escapedashes r.2 ++ lit "\n---\n" := by
  have hne : (splitlines r.2).map escapedashline ≠ [] := by
    obtain ⟨l, ls, hsplit, -⟩ := splitlines_first r.2
    rw [hsplit]
    exact List.cons_ne_nil _ _
  have hend := joinlines_end hne
  rw [entrylines, List.flatMap_cons, List.flatMap_append, ← hend, escapedashes]
  simp [lit]

theorem buildtoolresults_eq (results : List (Str × Str)) : buildtoolresults results =
    (lit "TOOL_RESULTS" :: results.flatMap entrylines).flatMap (· ++ ['\n']) := by
  rw [buildtoolresults, List.flatMap_cons, List.flatMap_assoc]
  congr 1
  exact congrArg results.flatMap (funext fun r => (entrylines_eq r).symm)

theorem entrylines_line {r : Str × Str} (hid : '\n' ∉ r.1) : ∀ l ∈ entrylines r, '\n' ∉ l := by
  intro l hl
  simp only [entrylines, List.mem_cons, List.mem_append, List.mem_map, List.not_mem_nil,
    or_false] at hl
  rcases hl with rfl | ⟨m, hm, rfl⟩ | rfl
  · exact hid
  · have hline := splitlines_mem hm
    rw [escapedashline]
    split_ifs
    · rw [List.mem_cons, not_or]
      exact ⟨by decide, hline⟩
    · exact hline
  · decide

theorem contents_read (id : Str) (taken : List Str) (h : ∀ l ∈ lines, ¬Cutoff l)
    (rest : List Str) :
    Llmclient.contents id taken (lines.map escapedashline ++ lit "---" :: rest) =
      (id, content (taken ++ lines)) :: Llmclient.entries rest := by
  induction lines generalizing taken with
  | nil =>
    rw [List.map_nil, List.nil_append, List.append_nil, Llmclient.contents, if_pos (by decide)]
  | cons line lines ih =>
    obtain ⟨hne, hline⟩ := escapedashline_read (h line List.mem_cons_self)
    rw [List.map_cons, List.cons_append, Llmclient.contents, if_neg hne, hline,
      ih _ fun l hl => h l (List.mem_cons_of_mem line hl), List.append_assoc,
      List.singleton_append]

def asread (r : Str × Str) : Str × Str := (tooluseid r.1, r.2.rdropWhile (· = '\n'))

theorem entries_read {results : List (Str × Str)}
    (hids : ∀ r ∈ results, Llmclient.strip r.1 ≠ [])
    (hcontents : ∀ r ∈ results, ∀ l ∈ splitlines r.2, ¬Cutoff l) :
    Llmclient.entries (results.flatMap entrylines) = results.map asread := by
  induction results with
  | nil => rfl
  | cons r results ih =>
    have hid := hids r List.mem_cons_self
    have hnot : ¬(r.1 = [] ∨ r.1 = lit "\r") := by
      rintro (h | h)
      · exact hid (by rw [h]; rfl)
      · exact hid (by rw [h]; decide)
    rw [List.flatMap_cons, entrylines, List.cons_append, Llmclient.entries, if_neg hnot,
      List.append_assoc, List.singleton_append,
      contents_read _ _ (hcontents r List.mem_cons_self), List.nil_append,
      ih (fun r' hr' => hids r' (List.mem_cons_of_mem r hr'))
        fun r' hr' => hcontents r' (List.mem_cons_of_mem r hr'), content, joinlines_splitlines]
    rfl

theorem parsetoolresults_buildtoolresults {results : List (Str × Str)} (hne : results ≠ [])
    (hids : ∀ r ∈ results, Llmclient.strip r.1 ≠ [] ∧ '\n' ∉ r.1)
    (hcontents : ∀ r ∈ results, ∀ l ∈ splitlines r.2, ¬Cutoff l) :
    Llmclient.parsetoolresults (buildtoolresults results) = .ok (results.map asread) := by
  have hlines : Llmclient.splitlines (buildtoolresults results) =
      lit "TOOL_RESULTS" :: results.flatMap entrylines := by
    rw [buildtoolresults_eq, llmclient_splitlines]
    intro l hl
    rcases List.mem_cons.mp hl with rfl | hl
    · decide
    · obtain ⟨r, hr, hl⟩ := List.mem_flatMap.mp hl
      exact entrylines_line (hids r hr).2 l hl
  have hread := entries_read (fun r hr => (hids r hr).1) hcontents
  rw [Llmclient.parsetoolresults, hlines]
  dsimp only
  rw [if_neg (by decide), hread, if_neg (by simpa using hne)]

theorem wire_carries (reason : Str) (calls : List (Str × Str × Str)) (text : Str)
    (results : List (Str × Str)) (htext : prefixed text (lit "TOOL:") = false)
    (hids : ∀ r ∈ results, Llmclient.strip r.1 ≠ [] ∧ '\n' ∉ r.1)
    (hcontents : ∀ r ∈ results, ∀ l ∈ splitlines r.2, ¬Cutoff l) :
    (parsellmresponse (response reason calls text)).2 = (calls, strip text) ∧
    Llmclient.parsetoolresults (buildtoolresults results) =
      if results = [] then .error (lit "TOOL_RESULTS contained no results")
      else .ok (results.map asread) := by
  refine ⟨parsellmresponse_response reason calls htext, ?_⟩
  split_ifs with hne
  · subst hne
    decide
  · exact parsetoolresults_buildtoolresults hne hids hcontents

set_option maxRecDepth 4000 in
/-- A line of dashes and the text of a call are carried; `-` is the user's. -/
theorem wire_carries_dashes :
    (parsellmresponse (response (lit "tool_use") [(lit "t1", lit "read", lit "a:b\nc\\")]
      (lit "so\nTOOL:x"))).2 = ([(lit "t1", lit "read", lit "a:b\nc\\")], lit "so\nTOOL:x") ∧
    Llmclient.parsetoolresults
      (buildtoolresults [(lit "t1", lit "a\n---\nb\n"), (lit "-", lit "stop")]) =
      .ok [(lit "t1", lit "a\n---\nb"), ([], lit "stop")] := by
  obtain ⟨hreply, hresults⟩ := wire_carries (lit "tool_use")
    [(lit "t1", lit "read", lit "a:b\nc\\")] (lit "so\nTOOL:x")
    [(lit "t1", lit "a\n---\nb\n"), (lit "-", lit "stop")] (by decide) (by decide) (by decide)
  exact ⟨hreply.trans (by decide), hresults.trans (by decide)⟩

set_option maxRecDepth 4000 in
/-- The user's id comes back empty and another without its blanks; a text that begins as the
line of a call is one, and dashes before a carriage return end an entry. -/
theorem wire_alters :
    Llmclient.parsetoolresults (buildtoolresults [(lit "-", lit "x"), (lit " t", lit "y")]) =
      .ok [([], lit "x"), (lit "t", lit "y")] ∧
    (parsellmresponse (response (lit "end_turn") [] (lit "TOOL:a:b:c"))).2 =
      ([(lit "a", lit "b", lit "c")], []) ∧
    Llmclient.parsetoolresults (buildtoolresults [(lit "t", lit "a\n---\r\nb")]) =
      .ok [(lit "t", lit "a"), (lit "b", [])] := by
  decide

end Infernode.Bridge
