import Infernode.Bridge.Native

/-!
# A native call reaches its tool

Quoted, a text is read back unless it ends with a backslash, which then escapes the closing
quote. A path is read back unless it begins with a quote.
-/

namespace Infernode.Bridge

open Limbo
open Tools (dropnl)

variable {readjson : Str → Except Str JValue} {text : JValue → Str}
variable {c quote : Char} {s t u old new path args : Str}

theorem quoted_end (hquote : quote ≠ '\\') (s : Str) : quoted quote (quote :: s) = ([], s) := by
  cases s with
  | nil => exact if_pos rfl
  | cons d s => rw [quoted, if_neg (fun h => hquote h.1), if_pos rfl]

theorem quoted_escaped (quote : Char) (s : Str) : quoted quote ('\\' :: quote :: s) =
    (quote :: (quoted quote s).1, (quoted quote s).2) := by
  rw [quoted, if_pos ⟨rfl, rfl⟩]

theorem quoted_cons (hc : c ≠ quote) (hs : c = '\\' → s.head? ≠ some quote) :
    quoted quote (c :: s) = (c :: (quoted quote s).1, (quoted quote s).2) := by
  cases s with
  | nil => exact if_neg hc
  | cons d s => rw [quoted, if_neg (fun h => hs h.1 (by rw [h.2]; rfl)), if_neg hc]

theorem editquotechar_head (s : Str) (hs : s ≠ []) (t : Str) :
    (s.flatMap editquotechar ++ t).head? ≠ some '"' := by
  cases s with
  | nil => exact absurd rfl hs
  | cons d s =>
    rw [List.flatMap_cons, editquotechar]
    split_ifs with hd
    · exact fun h => absurd (Option.some.inj h) (by decide)
    · exact fun h => hd (Option.some.inj h)

theorem quoted_editquote (hs : s.getLast? ≠ some '\\') (t : Str) :
    quoted '"' (s.flatMap editquotechar ++ '"' :: t) = (s, t) := by
  induction s with
  | nil => exact quoted_end (by decide) t
  | cons c s ih =>
    have hrest : s.getLast? ≠ some '\\' := by
      cases s with
      | nil => exact nofun
      | cons d s => rwa [List.getLast?_cons_cons] at hs
    have ih := ih hrest
    rw [List.flatMap_cons, editquotechar]
    split_ifs with hc
    · rw [List.cons_append, List.singleton_append, List.cons_append, List.cons_append,
        quoted_escaped, ih, hc]
    · rw [List.singleton_append, List.cons_append, quoted_cons hc, ih]
      rintro rfl
      refine editquotechar_head s ?_ _
      rintro rfl
      exact hs rfl

theorem quoted_backslash (s t : Str) : ∃ x y,
    quoted '"' ((s ++ ['\\']).flatMap editquotechar ++ '"' :: t) = (s ++ '"' :: x, y) := by
  induction s with
  | nil => exact ⟨_, _, quoted_escaped '"' t⟩
  | cons c s ih =>
    obtain ⟨x, y, ih⟩ := ih
    refine ⟨x, y, ?_⟩
    rw [List.cons_append, List.flatMap_cons, editquotechar]
    split_ifs with hc
    · rw [List.cons_append, List.singleton_append, List.cons_append, List.cons_append,
        quoted_escaped, ih, hc]
      rfl
    · rw [List.singleton_append, List.cons_append, quoted_cons hc, ih]
      · rfl
      · exact fun _ => editquotechar_head _ (by simp) _

theorem quoted_short (hquote : quote ≠ ' ' ∧ quote ≠ '\\') (hs : ' ' ∉ s) (t : Str) :
    (quoted quote (s ++ ' ' :: t)).1.length ≤ s.length ∨
      ' ' ∈ (quoted quote (s ++ ' ' :: t)).1 := by
  induction hn : s.length using Nat.strong_induction_on generalizing s with
  | _ n ih =>
  cases s with
  | nil =>
    rw [List.nil_append, quoted_cons hquote.1.symm (fun h => absurd h (by decide))]
    exact .inr List.mem_cons_self
  | cons c s =>
    rw [List.mem_cons, not_or] at hs
    have hlen : s.length + 1 = n := hn
    by_cases hc : c = quote
    · rw [hc, List.cons_append, quoted_end hquote.2]
      exact .inl (Nat.zero_le _)
    by_cases hescaped : c = '\\' ∧ s.head? = some quote
    · obtain ⟨rfl, hhead⟩ := hescaped
      cases s with
      | nil => exact absurd hhead nofun
      | cons d s =>
        obtain rfl := Option.some.inj hhead
        have hspace : ' ' ∉ s := fun h => hs.2 (List.mem_cons_of_mem _ h)
        have hlen' : s.length + 2 = n := hlen
        have hrest := ih s.length (by omega) hspace rfl
        rw [List.cons_append, List.cons_append, quoted_escaped]
        refine hrest.imp (fun h => ?_) (List.mem_cons_of_mem _)
        rw [List.length_cons]
        omega
    · have hrest := ih s.length (by omega) hs.2 rfl
      rw [List.cons_append, quoted_cons hc]
      · refine hrest.imp (fun h => ?_) (List.mem_cons_of_mem _)
        rw [List.length_cons]
        omega
      · intro hslash hhead
        cases s with
        | nil => exact hquote.1 (Option.some.inj hhead).symm
        | cons d s => exact hescaped ⟨hslash, hhead⟩

theorem parseone_quoted (s : Str) : parseone (' ' :: '"' :: s) = quoted '"' s := rfl

theorem parseone_editquote (hs : s.getLast? ≠ some '\\') (t : Str) :
    parseone (' ' :: (editquote s ++ t)) = (s, t) := by
  rw [editquote, List.append_assoc, List.append_assoc, List.singleton_append,
    List.singleton_append, parseone_quoted, quoted_editquote hs]

theorem parseone_backslash (s t : Str) : ∃ x y,
    parseone (' ' :: (editquote (s ++ ['\\']) ++ t)) = (s ++ '"' :: x, y) := by
  obtain ⟨x, y, hquoted⟩ := quoted_backslash s t
  refine ⟨x, y, ?_⟩
  rw [editquote, List.append_assoc, List.append_assoc, List.singleton_append,
    List.singleton_append, parseone_quoted, hquoted]

theorem parseone_text {t r : Str} (h : parseone (' ' :: (editquote s ++ t)) = (s, r)) :
    s.getLast? ≠ some '\\' := by
  intro hlast
  obtain ⟨u, rfl⟩ := List.getLast?_eq_some_iff.mp hlast
  obtain ⟨x, y, hread⟩ := parseone_backslash u t
  have hsame := (Prod.mk.inj (hread.symm.trans h)).1
  have hcons := List.append_cancel_left hsame
  exact absurd (List.cons.inj hcons).1 (by decide)

def Unspaced (path : Str) : Prop := path ≠ [] ∧ ∀ c ∈ path, separates c = false

theorem Unspaced.space (h : Unspaced path) : ∀ c ∈ path, (!space c) = true := by
  intro c hc
  have hsep : ¬(c = ' ' ∨ c = '\t' ∨ c = '\n') := of_decide_eq_false (h.2 c hc)
  have hspace : Bridge.space c = false := decide_eq_false fun h => hsep (h.imp_right .inl)
  rw [hspace]
  rfl

def beginsquote (path : Str) : Bool := path.head? = some '"' ∨ path.head? = some '\''

theorem parseone_path (h : Unspaced path) (hquote : beginsquote path = false) (t : Str) :
    parseone (path ++ ' ' :: t) = (path, ' ' :: t) := by
  have hspace := h.space
  cases path with
  | nil => exact absurd rfl h.1
  | cons c path =>
    have hfirst : space c = false := by simpa using hspace c List.mem_cons_self
    have hne : ¬(c = '"' ∨ c = '\'') := by
      simpa [beginsquote] using hquote
    rw [parseone, List.cons_append, List.dropWhile_cons_of_neg (by rw [hfirst]; decide)]
    dsimp only
    rw [if_neg hne, ← List.cons_append, List.takeWhile_append_of_pos hspace,
      List.dropWhile_append_of_pos hspace, List.takeWhile_cons_of_neg (by decide),
      List.dropWhile_cons_of_neg (by decide), List.append_nil]

theorem parseone_quote (h : Unspaced path) {t : Str} (hread : (parseone (path ++ ' ' :: t)).1 = path) :
    beginsquote path = false := by
  have hspace := h.space
  have hblank : ' ' ∉ path := fun hmem => absurd (hspace ' ' hmem) (by decide)
  cases path with
  | nil => exact absurd rfl h.1
  | cons c path =>
    have hfirst : space c = false := by simpa using hspace c List.mem_cons_self
    by_cases hquote : c = '"' ∨ c = '\''
    · rw [parseone, List.cons_append, List.dropWhile_cons_of_neg (by rw [hfirst]; decide)] at hread
      dsimp only at hread
      rw [if_pos hquote] at hread
      have hc : c ≠ ' ' ∧ c ≠ '\\' := by
        rcases hquote with rfl | rfl <;> decide
      rcases quoted_short hc (fun h => hblank (List.mem_cons_of_mem c h)) t with hlen | hmem
      · rw [hread, List.length_cons] at hlen
        omega
      · rw [hread] at hmem
        exact absurd hmem hblank
    · simpa [beginsquote] using hquote

def allflag (all : Bool) : Str := if all then lit " all" else []

def edittext (path old new : Str) (all : Bool) : Str :=
  path ++ ' ' :: (editquote old ++ ' ' :: (editquote new ++ allflag all))

def Readable (path old new : Str) (all : Bool) : Prop :=
  beginsquote path = false ∧ old.getLast? ≠ some '\\' ∧ new.getLast? ≠ some '\\' ∧
    (old = [] → new = [] ∧ all = false)

theorem allflag_read (all : Bool) : decide ((parseone (allflag all)).1 = lit "all") = all := by
  cases all <;> decide

theorem parseargs_edittext (hpath : Unspaced path) (old new : Str) (all : Bool) :
    parseargs (edittext path old new all) = (path, ⟨old, new, all⟩) ↔
      Readable path old new all := by
  constructor
  · intro h
    rw [edittext, parseargs] at h
    rcases hone : parseone (path ++ ' ' :: (editquote old ++ ' ' :: (editquote new ++ allflag all)))
      with ⟨p, r⟩
    rw [hone] at h
    dsimp only at h
    have hp : p = path := by
      split_ifs at h with hnone
      · exact absurd (Prod.mk.inj h).1.symm hpath.1
      · exact (Prod.mk.inj h).1
      · exact (Prod.mk.inj h).1
    subst hp
    have hquote : beginsquote p = false := parseone_quote hpath (congrArg Prod.fst hone)
    obtain rfl := (Prod.mk.inj ((parseone_path hpath hquote _).symm.trans hone)).2
    rw [if_neg hpath.1] at h
    rcases htwo : parseone (' ' :: (editquote old ++ ' ' :: (editquote new ++ allflag all)))
      with ⟨o, r⟩
    rw [htwo] at h
    dsimp only at h
    by_cases ho : o = []
    · rw [if_pos ho] at h
      obtain ⟨rfl, rfl, rfl⟩ := Change.mk.inj (Prod.mk.inj h).2
      exact ⟨hquote, nofun, nofun, fun _ => ⟨rfl, rfl⟩⟩
    rw [if_neg ho] at h
    obtain ⟨rfl, hnew, -⟩ := Change.mk.inj (Prod.mk.inj h).2
    have hold := parseone_text htwo
    obtain rfl := (Prod.mk.inj ((parseone_editquote hold _).symm.trans htwo)).2
    refine ⟨hquote, hold, ?_, fun hnone => absurd hnone ho⟩
    exact parseone_text (Prod.ext hnew rfl)
  · rintro ⟨hquote, hold, hnew, hnone⟩
    rw [edittext, parseargs, parseone_path hpath hquote]
    dsimp only
    rw [if_neg hpath.1, parseone_editquote hold]
    dsimp only
    by_cases ho : old = []
    · obtain ⟨rfl, rfl⟩ := hnone ho
      rw [if_pos ho, ho]
    · rw [if_neg ho, parseone_editquote hnew]
      dsimp only
      rw [allflag_read]

theorem nativeheredoc_literal (h : Literal args) : nativeheredoc args = args := by
  rw [nativeheredoc]
  cases hmarker : findheredoc (firstline args) with
  | none => rfl
  | some markerpos => exact if_neg (h markerpos hmarker)

theorem dropnl_line (s : Str) : dropnl (s ++ ['\n']) = s := by
  rw [dropnl, List.getLast?_concat, if_pos rfl, List.dropLast_concat]

theorem dropnl_append (s t : Str) (ht : t ≠ []) : dropnl (s ++ t) = s ++ dropnl t := by
  rw [dropnl, dropnl, List.getLast?_append_of_ne_nil _ ht, List.dropLast_append_of_ne_nil ht]
  split_ifs <;> rfl

theorem dropnl_space (s : Str) : dropnl (' ' :: s) = ' ' :: dropnl s := by
  cases s with
  | nil => rfl
  | cons c s => exact dropnl_append [' '] (c :: s) (List.cons_ne_nil c s)

theorem dropnl_edittext (path old new : Str) (all : Bool) :
    dropnl (lit "-r " ++ edittext path old new all) = lit "-r " ++ edittext path old new all := by
  have hlast : dropnl (editquote new ++ allflag all) = editquote new ++ allflag all := by
    cases all with
    | true =>
      rw [dropnl_append _ _ (by decide)]
      rfl
    | false =>
      rw [allflag, if_neg (by decide), List.append_nil, editquote, dropnl,
        List.getLast?_concat, if_neg (by decide)]
  have hne : editquote new ++ allflag all ≠ [] := by simp [editquote]
  rw [edittext, dropnl_append _ _ (by simp), dropnl_append _ _ (by simp), dropnl_space,
    dropnl_append _ _ (by simp), dropnl_space, hlast]

theorem editread_raw (depth : ℕ) (hs : s ≠ []) :
    editread readjson text depth (lit "-r " ++ s) =
      .ok ((parseargs s).1, [(parseargs s).2], true) := by
  have hlen : 3 < (lit "-r " ++ s).length := by
    have hpos := List.length_pos_iff.mpr hs
    rw [List.length_append, show (lit "-r ").length = 3 from rfl]
    omega
  rw [editread, if_neg (fun h => absurd h.2 Bool.false_ne_true), if_pos ⟨hlen, rfl⟩]
  rfl

theorem editread_json (depth : ℕ) (hs : s ≠ []) :
    editread readjson text depth (lit "-j " ++ s) =
      (parsechanges readjson text depth (parseone s).2).map
        fun changes => ((parseone s).1, changes, true) := by
  have hlen : 3 < (lit "-j " ++ s).length := by
    have hpos := List.length_pos_iff.mpr hs
    rw [List.length_append, show (lit "-j ").length = 3 from rfl]
    omega
  rw [editread, if_pos ⟨hlen, rfl⟩]
  rfl

def editobject (e : Str × Str) : JValue :=
  .object [(lit "old", .string e.1), (lit "new", .string e.2)]

theorem onechange_editobject (missing : Str) (e : Str × Str) :
    onechange text missing (editobject e) =
      if e.1 = [] then .error missing else .ok ⟨e.1, e.2, false⟩ := rfl

theorem changes_read {l : List (Str × Str)} (hl : ∀ e ∈ l, e.1 ≠ []) (i : ℕ) :
    changesfrom text i (l.map editobject) = .ok (l.map fun e => ⟨e.1, e.2, false⟩) := by
  induction l generalizing i with
  | nil => rfl
  | cons e l ih =>
    have hrest := ih (fun e' he' => hl e' (List.mem_cons_of_mem e he')) (i + 1)
    rw [List.map_cons, changesfrom, hrest, onechange_editobject, if_neg (hl e List.mem_cons_self)]
    rfl

theorem changes_error {l : List (Str × Str)} (hl : ∃ e ∈ l, e.1 = []) (i : ℕ) :
    ∃ err, changesfrom text i (l.map editobject) = .error err := by
  induction l generalizing i with
  | nil =>
    obtain ⟨e, he, -⟩ := hl
    exact absurd he List.not_mem_nil
  | cons e l ih =>
    rw [List.map_cons, changesfrom]
    cases hrest : changesfrom text (i + 1) (l.map editobject) with
    | error err => exact ⟨err, rfl⟩
    | ok changes =>
      have he : e.1 = [] := by
        obtain ⟨e', he', hnone⟩ := hl
        rcases List.mem_cons.mp he' with rfl | he'
        · exact hnone
        · obtain ⟨err, herr⟩ := ih ⟨e', he', hnone⟩ (i + 1)
          exact absurd (hrest.symm.trans herr) nofun
      rw [onechange_editobject, if_pos he]
      exact ⟨_, rfl⟩

theorem parsechanges_edits (text : JValue → Str) {js : Str} {jv : JValue} {l : List (Str × Str)} (depth : ℕ)
    (hread : readjson js = .ok jv)
    (hedits : jget jv (lit "edits") = some (.array (l.map editobject)))
    (hold : jget jv (lit "old") = none) :
    parsechanges readjson text (depth + 1) js = .ok (l.map fun e => ⟨e.1, e.2, false⟩) ↔
      l ≠ [] ∧ ∀ e ∈ l, e.1 ≠ [] := by
  rw [parsechanges, hread]
  dsimp only
  rw [hedits]
  dsimp only
  by_cases hl : ∀ e ∈ l, e.1 ≠ []
  · rw [changes_read hl 0, hold]
    cases l with
    | nil => exact ⟨fun h => absurd h nofun, fun h => absurd rfl h.1⟩
    | cons e l => exact ⟨fun _ => ⟨List.cons_ne_nil e l, hl⟩, fun _ => rfl⟩
  · obtain ⟨err, herr⟩ := (changes_error (by simpa using hl) 0 :
      ∃ err, changesfrom text 0 (l.map editobject) = .error err)
    rw [herr]
    exact ⟨fun h => absurd h nofun, fun h => absurd h.2 hl⟩

theorem editargs_single {inputjson : Str} {mem : List (Str × JValue)}
    (hread : readjson inputjson = .ok (.object mem))
    (hargs : jget (.object mem) (lit "args") = none)
    (hedits : jget (.object mem) (lit "edits") = none) {all : Bool}
    (hall : all = decide ((JValue.object mem).last text (lit "all") ∈
      [lit "true", lit "all", lit "1"])) :
    editargs readjson text inputjson = lit "-r " ++
      edittext ((JValue.object mem).last text (lit "path"))
        ((JValue.object mem).last text (lit "old"))
        ((JValue.object mem).last text (lit "new")) all := by
  have hflag : (if (JValue.object mem).last text (lit "all") = lit "true" ∨
      (JValue.object mem).last text (lit "all") = lit "all" ∨
      (JValue.object mem).last text (lit "all") = lit "1" then lit " all" else []) =
      allflag all := by
    rw [hall, allflag]
    simp only [List.mem_cons, List.not_mem_nil, or_false, decide_eq_true_eq]
  rw [editargs, hread]
  dsimp only
  rw [hargs, hedits]
  dsimp only
  rw [if_neg (by decide), hflag, edittext]
  simp only [List.append_assoc]
  rfl

theorem editargs_edits {inputjson : Str} {mem : List (Str × JValue)}
    (hread : readjson inputjson = .ok (.object mem))
    (hargs : jget (.object mem) (lit "args") = none) {edits : JValue}
    (hedits : jget (.object mem) (lit "edits") = some edits) :
    editargs readjson text inputjson =
      lit "-j " ++ ((JValue.object mem).last text (lit "path") ++ ' ' :: inputjson) := by
  rw [editargs, hread]
  dsimp only
  rw [hargs, hedits]
  dsimp only
  rw [if_pos (show (some edits).isSome = true from rfl)]
  simp only [List.append_assoc]
  rfl

theorem rawargs_path (hpath : Unspaced path) (s : Str) :
    rawargs (path ++ ' ' :: s) = (path, s) := by
  have hall : ∀ c ∈ path, (!separates c) = true := fun c hc => by rw [hpath.2 c hc]; rfl
  rw [rawargs, List.takeWhile_append_of_pos hall, List.dropWhile_append_of_pos hall,
    List.takeWhile_cons_of_neg (by decide), List.dropWhile_cons_of_neg (by decide),
    List.append_nil]
  rfl

theorem writeread_content {inputjson : Str} {mem : List (Str × JValue)}
    (hread : readjson inputjson = .ok (.object mem))
    (hargs : jget (.object mem) (lit "args") = none)
    (hpath : Unspaced ((JValue.object mem).last text (lit "path")))
    (hliteral : Literal (writeargs readjson text inputjson)) :
    writeread (dropnl (nativeheredoc (writeargs readjson text inputjson))) =
      some ((JValue.object mem).last text (lit "path"),
        (JValue.object mem).last text (lit "content")) := by
  have hwrite : writeargs readjson text inputjson =
      (lit "-r " ++ ((JValue.object mem).last text (lit "path") ++
        ' ' :: (JValue.object mem).last text (lit "content"))) ++ ['\n'] := by
    rw [writeargs, hread]
    dsimp only
    rw [hargs]
    dsimp only
    rw [if_neg hpath.1]
    simp only [List.append_assoc]
    rfl
  rw [nativeheredoc_literal hliteral, hwrite, dropnl_line, writeread]
  have hlen := List.length_pos_iff.mpr hpath.1
  rw [if_pos]
  · exact congrArg some (rawargs_path hpath _)
  · refine ⟨?_, rfl⟩
    rw [List.length_append, List.length_append, show (lit "-r ").length = 3 from rfl]
    omega

def readone (json : Str) (mem : List (Str × JValue)) (s : Str) : Except Str JValue :=
  if s.filter (fun c => !blank c) = json then .ok (.object mem) else .error (lit "not JSON")

theorem readone_space (json : Str) (mem : List (Str × JValue)) (s : Str) :
    readone json mem (' ' :: s) = readone json mem s := rfl

theorem readone_line (json : Str) (mem : List (Str × JValue)) (s : Str) :
    readone json mem (dropnl s) = readone json mem s := by
  rw [dropnl]
  split_ifs with hlast
  · obtain ⟨u, rfl⟩ := List.getLast?_eq_some_iff.mp hlast
    rw [List.dropLast_concat, readone, readone, List.filter_append,
      List.filter_cons_of_neg (by decide), List.filter_nil, List.append_nil]
  · rfl

def othertext : JValue → Str
  | .other t => t
  | _ => []

def slashjson : Str := lit "\x7b\"path\":\"/f\",\"old\":\"a\\\\\",\"new\":\"b\"\x7d"

def slashmem : List (Str × JValue) :=
  [(lit "path", .string (lit "/f")), (lit "old", .string (lit "a\\")),
    (lit "new", .string (lit "b"))]

def heredocjson : Str := lit "\x7b\"path\":\"/f\",\"content\":\"<<E\\nx\\nE\"\x7d"

def heredocmem : List (Str × JValue) :=
  [(lit "path", .string (lit "/f")), (lit "content", .string (lit "<<E\nx\nE"))]

def quotejson : Str :=
  lit "\x7b\"path\":\"/f\",\"old\":\"\\\"\\\\x\",\"new\":\"'\",\"all\":true\x7d"

def quotemem : List (Str × JValue) :=
  [(lit "path", .string (lit "/f")), (lit "old", .string (lit "\"\\x")),
    (lit "new", .string (lit "'")), (lit "all", .other (lit "true"))]

end Infernode.Bridge
