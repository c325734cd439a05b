import Infernode.Limbo.Str

/-!
# Which paths may be granted to an agent

`validatepath`, `grantpathallowed` and the predicates behind
`privilegedcontrolpath` of `nsconstruct.b`, each over lower-cased paths as the
source applies them. Most predicates ask whether the path is one of a list of
roots or lies below one; those that ask for an exact path, or count
components, keep their own bodies.

The second half states what a grant must not reach: a control path of the
table, under any ASCII spelling, under the numbered names a tools9p instance
publishes, or under the `/n` name a service had before it moved to `/mnt`.
-/

namespace Infernode.Veltro.Grant
open Infernode.Limbo

def splitslash (cur : Str) : Str → List Str
  | [] => [cur]
  | c :: cs => if c = '/' then cur :: splitslash [] cs else splitslash (cur ++ [c]) cs

def delimiter (c : Char) : Bool :=
  c == ' ' || c == '\n' || c == '\r' || c == '\t' || c == ',' || c == '='

def checkcomponents : List Str → Option String
  | [] => none
  | comp :: rest =>
    if comp = [] then some "empty path component"
    else if comp = ['.'] ∨ comp = ['.', '.'] then some "dot path component"
    else checkcomponents rest

def validatepath : Str → Option String
  | [] => some "empty path"
  | c :: p =>
    if c ≠ '/' then some "path must be absolute"
    else if p = [] then some "root path is not grantable"
    else if (c :: p).any delimiter then some "path contains control delimiter"
    else checkcomponents (splitslash [] p)

def dangerous : List Str :=
  ["/tool/ctl", "/tool/ns", "/tool/event", "/tool/view", "/mnt/toolctl", "/mnt/toolctl/ctl",
   "/mnt/factotum", "/mnt/ui/ctl", "/mnt/msg/ctl", "/mnt/msg/pending", "/mnt/msg/approve",
   "/mnt/msg/deny", "/mnt/wallet/ctl", "/mnt/wallet/pending", "/mnt/wallet/new",
   "/n/wallet/ctl", "/n/wallet/pending", "/n/wallet/new"].map lit

def withinany (roots : List String) (path : Str) : Bool :=
  roots.any fun r => within r path

def chanroots : List String := ["/chan", "/fd"]
def secretroots : List String := ["/keyring", "/secstore"]
def veltroroots : List String := ["/tmp/veltro/.ns", "/tmp/veltro/cow", "/tmp/veltro/tasks"]
def auditroots : List String := ["/mnt/audit/ctl", "/mnt/audit/chain"]

def ambientauthoritypath (path : Str) : Bool :=
  withinany chanroots path ||
  path == ("/usr" : Str) ||
  (pathhascomponent path "keyring" || pathhascomponent path "secstore") &&
    (withinany secretroots path || prefixed path "/usr/" || prefixed path "/mnt/")

def reservedrootpath (path : Str) : Bool :=
  path == ("/mnt" : Str) || withinany chanroots path

def controlaliaspath (path : Str) : Bool :=
  prefixed path "/mnt/toolctl." || prefixed path "/tool."

def walletcontrolpath (path : Str) : Bool :=
  if !prefixed path "/mnt/wallet/" && !prefixed path "/n/wallet/" then false
  else if componentcount path < 4 then false
  else pathhascomponent path "ctl" || pathhascomponent path "sign"

def ftreecontrolpath (path : Str) : Bool := withinany ["/mnt/ftree"] path

def tmpveltrointernalpath (path : Str) : Bool :=
  withinany veltroroots path

def appipcroots : List String :=
  ["/mnt/charon", "/tmp/veltro/browser", "/mnt/editor", "/mnt/shell", "/mnt/fractal", "/mnt/man"]

def appipccontrolpath (path : Str) : Bool := withinany appipcroots path

def appipctoolpath (path : Str) (tools : List Str) : Bool :=
  within "/mnt/charon" path && inlist "charon" tools ||
  within "/mnt/editor" path && inlist "editor" tools ||
  within "/mnt/shell" path && inlist "shell" tools ||
  within "/mnt/fractal" path && inlist "fractal" tools ||
  within "/mnt/man" path && inlist "man" tools

def uiagentcontrolpath (path : Str) : Bool := withinany ["/mnt/ui"] path

def llmctlcontrolpath (path : Str) : Bool :=
  path == ("/llm" : Str) || withinany ["/llm/ctl"] path

def auditcontrolpath (path : Str) : Bool :=
  path == ("/mnt/audit" : Str) || withinany auditroots path

def calendarcontrolpath (path : Str) : Bool :=
  if path == ("/mnt/cal" : Str) || path == ("/mnt/cal/ctl" : Str) ||
      path == ("/mnt/cal/accounts" : Str) then true
  else if prefixed path "/mnt/cal/accounts/" then
    componentcount path ≤ 4 || pathhascomponent path "ctl"
  else false

def fixedservices : List String :=
  ["/mnt/matrix", "/mnt/wsys", "/mnt/git", "/n/git", "/mnt/gpu", "/mnt/gps", "/mnt/web", "/n/web",
   "/mnt/wiki", "/mnt/wikia", "/n/wikia", "/mnt/keys", "/mnt/keysrv", "/mnt/registry",
   "/mnt/video", "/phone"]

def fixedservicecontrolpath (path : Str) : Bool := withinany fixedservices path

def privilegedcontrolpath (path0 : Str) (tools : List Str) : Bool :=
  let path := asciilower path0
  ambientauthoritypath path ||
  dangerous.any (fun d => within d path) ||
  prefixed path "/mnt/toolctl." ||
  (reservedrootpath path || controlaliaspath path) ||
  walletcontrolpath path ||
  ftreecontrolpath path ||
  tmpveltrointernalpath path ||
  (appipccontrolpath path && !appipctoolpath path tools) ||
  uiagentcontrolpath path ||
  llmctlcontrolpath path ||
  auditcontrolpath path ||
  calendarcontrolpath path ||
  fixedservicecontrolpath path

def mailaccountancestor (path : Str) : Bool :=
  prefixed path "/mnt/mail/accounts/" && componentcount path ≤ 4 ||
  prefixed path "/mnt/mail/accounts/" && pathhascomponent path "boxes" && componentcount path ≤ 7

def directmailsendpath (path : Str) : Bool :=
  if path == ("/mnt/mail" : Str) then true
  else if prefixed path "/mnt/mail/" then
    pathhascomponent path "compose" || pathhascomponent path "draft-reply" ||
      mailaccountancestor path
  else false

def grantpathallowed (path : Str) (tools : List Str) : Bool :=
  let check := asciilower path
  !privilegedcontrolpath check tools && !directmailsendpath check && !ambientauthoritypath check

theorem grantpathallowed_lower {p q : Str} (tools : List Str) (h : asciilower q = asciilower p) :
    grantpathallowed q tools = grantpathallowed p tools := by
  simp only [grantpathallowed, h]

theorem refused_of_privileged {p : Str} {tools : List Str}
    (h : privilegedcontrolpath p tools = true) : grantpathallowed p tools = false := by
  have hc : privilegedcontrolpath (asciilower p) tools = true := by
    simpa only [privilegedcontrolpath, asciilower_idem] using h
  simp [grantpathallowed, hc]

theorem downward_withinany (roots : List String) : Downward (withinany roots) := by
  intro r s h
  simp only [withinany, List.any_eq_true] at h ⊢
  obtain ⟨root, hroot, hw⟩ := h
  exact ⟨root, hroot, within_below s hw⟩

theorem downward_dangerous : Downward fun p => dangerous.any fun d => within d p := by
  intro r s h
  simp only [List.any_eq_true] at h ⊢
  obtain ⟨d, hd, hw⟩ := h
  exact ⟨d, hd, within_below s hw⟩

theorem walletcontrolpath_eq (path : Str) : walletcontrolpath path =
    ((prefixed path "/mnt/wallet/" || prefixed path "/n/wallet/") &&
      decide (4 ≤ componentcount path) &&
      (pathhascomponent path "ctl" || pathhascomponent path "sign")) := by
  unfold walletcontrolpath
  cases prefixed path "/mnt/wallet/" <;> cases prefixed path "/n/wallet/" <;>
    by_cases h : componentcount path < 4 <;> simp [h, Nat.not_lt.mp]

theorem downward_walletcontrolpath : Downward walletcontrolpath := by
  have h : Downward fun path => (prefixed path "/mnt/wallet/" || prefixed path "/n/wallet/") &&
      decide (4 ≤ componentcount path) &&
      (pathhascomponent path "ctl" || pathhascomponent path "sign") :=
    (((downward_prefixed _).or (downward_prefixed _)).and (downward_componentcount 4)).and
      ((downward_pathhascomponent _).or (downward_pathhascomponent _))
  simpa only [← walletcontrolpath_eq] using h

/-- The paths `privilegedcontrolpath` refuses for themselves only: what lies
below them is judged by its own name. -/
def exactcontrol (path : Str) : Bool :=
  path == ("/usr" : Str) || path == ("/mnt" : Str) || path == ("/llm" : Str) ||
  path == ("/mnt/audit" : Str) || path == ("/mnt/cal" : Str) || path == ("/mnt/cal/ctl" : Str) ||
  path == ("/mnt/cal/accounts" : Str) ||
  prefixed path "/mnt/cal/accounts/" && decide (componentcount path ≤ 4) &&
    !pathhascomponent path "ctl"

def appipcrefused (tools : List Str) (root : String) : Bool :=
  if root = "/mnt/charon" then !inlist "charon" tools
  else if root = "/mnt/editor" then !inlist "editor" tools
  else if root = "/mnt/shell" then !inlist "shell" tools
  else if root = "/mnt/fractal" then !inlist "fractal" tools
  else if root = "/mnt/man" then !inlist "man" tools
  else true

theorem appipcroots_apart : ∀ a ∈ appipcroots, ∀ b ∈ appipcroots, a ≠ b →
    (within a b || within b a) = false := by decide

theorem appipctoolpath_of_within {root : String} (hroot : root ∈ appipcroots) {path : Str}
    (h : within root path = true) (tools : List Str) :
    appipctoolpath path tools = !appipcrefused tools root := by
  have hother : ∀ b ∈ appipcroots, root ≠ b → within b path = false :=
    fun b hb hne => within_apart (appipcroots_apart root hroot b hb hne) h
  simp only [appipcroots, List.mem_cons, List.not_mem_nil, or_false] at hroot
  rcases hroot with rfl | rfl | rfl | rfl | rfl | rfl <;>
    simp [appipctoolpath, appipcrefused, h,
      hother "/mnt/charon" (by decide), hother "/mnt/editor" (by decide),
      hother "/mnt/shell" (by decide), hother "/mnt/fractal" (by decide),
      hother "/mnt/man" (by decide)]

theorem downward_appipc (tools : List Str) :
    Downward fun p => appipccontrolpath p && !appipctoolpath p tools := by
  intro r s h
  obtain ⟨hr, ht⟩ := (Bool.and_eq_true _ _).mp h
  simp only [appipccontrolpath, withinany, List.any_eq_true] at hr
  obtain ⟨root, hroot, hw⟩ := hr
  have hbelow := within_below s hw
  rw [appipctoolpath_of_within hroot hw] at ht
  refine (Bool.and_eq_true _ _).mpr ⟨?_, ?_⟩
  · simp only [appipccontrolpath, withinany, List.any_eq_true]
    exact ⟨root, hroot, hbelow⟩
  · rwa [appipctoolpath_of_within hroot hbelow]

def subtreecontrol (tools : List Str) (path : Str) : Bool :=
  (pathhascomponent path "keyring" || pathhascomponent path "secstore") &&
    (withinany secretroots path || prefixed path "/usr/" || prefixed path "/mnt/") ||
  dangerous.any (fun d => within d path) ||
  prefixed path "/mnt/toolctl." ||
  (withinany chanroots path || controlaliaspath path) ||
  walletcontrolpath path ||
  ftreecontrolpath path ||
  tmpveltrointernalpath path ||
  (appipccontrolpath path && !appipctoolpath path tools) ||
  uiagentcontrolpath path ||
  withinany ["/llm/ctl"] path ||
  withinany auditroots path ||
  prefixed path "/mnt/cal/accounts/" && pathhascomponent path "ctl" ||
  fixedservicecontrolpath path

theorem downward_subtreecontrol (tools : List Str) : Downward (subtreecontrol tools) := by
  have hsecret : Downward fun path =>
      (pathhascomponent path "keyring" || pathhascomponent path "secstore") &&
        (withinany secretroots path || prefixed path "/usr/" ||
          prefixed path "/mnt/") :=
    ((downward_pathhascomponent _).or (downward_pathhascomponent _)).and
      (((downward_withinany _).or (downward_prefixed _)).or (downward_prefixed _))
  have halias : Downward controlaliaspath := (downward_prefixed _).or (downward_prefixed _)
  have hcal : Downward fun path =>
      prefixed path "/mnt/cal/accounts/" && pathhascomponent path "ctl" :=
    (downward_prefixed _).and (downward_pathhascomponent _)
  exact (((((((((((hsecret.or downward_dangerous).or (downward_prefixed _)).or
    ((downward_withinany _).or halias)).or downward_walletcontrolpath).or
    (downward_withinany _)).or (downward_withinany _)).or (downward_appipc tools)).or
    (downward_withinany _)).or (downward_withinany _)).or (downward_withinany _)).or hcal).or
    (downward_withinany _)

theorem privilegedcontrolpath_iff (p : Str) (tools : List Str) :
    privilegedcontrolpath p tools = true ↔
      exactcontrol (asciilower p) = true ∨ subtreecontrol tools (asciilower p) = true := by
  generalize hq : asciilower p = q
  simp only [privilegedcontrolpath, hq, exactcontrol, subtreecontrol, ambientauthoritypath,
    reservedrootpath, llmctlcontrolpath, auditcontrolpath, calendarcontrolpath]
  clear hq
  grind

def movedservices : List Str :=
  ["wallet", "ui", "llm", "speech", "git", "web", "wikia"].map lit

def subpath (rest : Str) : Prop := rest = [] ∨ ∃ t, rest = '/' :: t

inductive Alias : Str → Str → Prop where
  | toolctl {id rest : Str} : '/' ∉ id → subpath rest →
      Alias ("/mnt/toolctl" ++ rest) ("/mnt/toolctl." ++ id ++ rest)
  | tool {id rest : Str} : '/' ∉ id → subpath rest →
      Alias ("/tool" ++ rest) ("/tool." ++ id ++ rest)
  | moved (service rest : Str) : service ∈ movedservices → subpath rest →
      Alias ("/mnt/" ++ service ++ rest) ("/n/" ++ service ++ rest)

def fixedroots : List Str :=
  dangerous ++ (chanroots ++ secretroots ++ ["/mnt/ftree"] ++ veltroroots ++ ["/mnt/ui"] ++
    ["/llm/ctl"] ++ auditroots ++ fixedservices).map lit

def controlroots (tools : List Str) : List Str :=
  fixedroots ++ (appipcroots.filter (appipcrefused tools)).map lit

def Controls (tools : List Str) (path : Str) : Prop :=
  ∃ d ∈ controlroots tools, ∃ a, (a = d ∨ Alias d a) ∧ within a path = true

theorem asciilower_within {root path : Str} (h : within root path = true) :
    within (asciilower root) (asciilower path) = true := by
  rw [within_iff] at h ⊢
  rcases h with rfl | ⟨t, rfl⟩
  · exact Or.inl rfl
  · exact Or.inr ⟨asciilower t, asciilower_below root t⟩

theorem mem_controlroots {tools : List Str} {d : Str} (h : d ∈ controlroots tools) :
    d ∈ fixedroots ∨ d ∈ appipcroots.map lit := by
  simp only [controlroots, List.mem_append, List.mem_map, List.mem_filter] at h ⊢
  rcases h with h | ⟨r, ⟨hr, -⟩, rfl⟩
  · exact Or.inl h
  · exact Or.inr ⟨r, hr, rfl⟩

theorem asciilower_controlroots {tools : List Str} {d : Str} (h : d ∈ controlroots tools) :
    asciilower d = d := by
  have hfixed : ∀ d ∈ fixedroots, asciilower d = d := by decide
  have happ : ∀ d ∈ appipcroots.map lit, asciilower d = d := by decide
  rcases mem_controlroots h with h | h
  · exact hfixed d h
  · exact happ d h

theorem moved_fixedroots : ∀ d ∈ fixedroots, ∀ service ∈ movedservices,
    prefixed d ("/mnt/" ++ service) = true →
      "/n/" ++ service ++ d.drop (lit "/mnt/" ++ service).length ∈ fixedroots ∨
      within "/n/ui" ("/n/" ++ service ++ d.drop (lit "/mnt/" ++ service).length) = true := by
  decide

theorem moved_cases {tools : List Str} {service rest : Str}
    (hd : "/mnt/" ++ service ++ rest ∈ controlroots tools) (hs : service ∈ movedservices) :
    "/n/" ++ service ++ rest ∈ fixedroots ∨ within "/n/ui" ("/n/" ++ service ++ rest) = true := by
  have hp : prefixed ("/mnt/" ++ service ++ rest) ("/mnt/" ++ service) = true :=
    (prefixed_iff _ _).mpr ⟨rest, rfl⟩
  have happ : ∀ d ∈ appipcroots.map lit, ∀ service ∈ movedservices,
      prefixed d ("/mnt/" ++ service) = false := by decide
  rcases mem_controlroots hd with hd | hd
  · simpa only [List.drop_left] using moved_fixedroots _ hd service hs hp
  · exact absurd hp (by rw [happ _ hd service hs]; exact Bool.false_ne_true)

theorem subtreecontrol_of_secretroots {r : String} (tools : List Str) (hr : r ∈ secretroots)
    {path : Str} (h : within r path = true) : subtreecontrol tools path = true := by
  have hany : withinany secretroots path = true := List.any_eq_true.mpr ⟨r, hr, h⟩
  have hroots : ∀ r ∈ secretroots,
      (pathhascomponent r "keyring" || pathhascomponent r "secstore") = true := by decide
  have hbase := hroots r hr
  have hcomp : (pathhascomponent path "keyring" || pathhascomponent path "secstore") = true := by
    rcases (within_iff _ path).mp h with rfl | ⟨t, rfl⟩
    · exact hbase
    · exact ((downward_pathhascomponent _).or (downward_pathhascomponent _)) _ t hbase
  simp [subtreecontrol, hany, hcomp]

theorem subtreecontrol_of_fixedroots {d path : Str} (tools : List Str) (hd : d ∈ fixedroots)
    (h : within d path = true) : subtreecontrol tools path = true := by
  have hany : ∀ {roots : List String} {r : String}, r ∈ roots → lit r = d →
      withinany roots path = true := by
    intro roots r hr he
    exact List.any_eq_true.mpr ⟨r, hr, he ▸ h⟩
  simp only [fixedroots, List.mem_append, List.mem_map] at hd
  rcases hd with hd | ⟨r, ((((((hr | hr) | hr) | hr) | hr) | hr) | hr) | hr, he⟩
  · have hdanger : dangerous.any (fun d => within d path) = true :=
      List.any_eq_true.mpr ⟨d, hd, h⟩
    simp [subtreecontrol, hdanger]
  · simp [subtreecontrol, hany hr he]
  · exact subtreecontrol_of_secretroots tools hr (he ▸ h)
  · simp [subtreecontrol, ftreecontrolpath, hany hr he]
  · simp [subtreecontrol, tmpveltrointernalpath, hany hr he]
  · simp [subtreecontrol, uiagentcontrolpath, hany hr he]
  · simp [subtreecontrol, hany hr he]
  · simp [subtreecontrol, hany hr he]
  · simp [subtreecontrol, fixedservicecontrolpath, hany hr he]

theorem subtreecontrol_of_controlroots {d path : Str} {tools : List Str}
    (hd : d ∈ controlroots tools) (h : within d path = true) :
    subtreecontrol tools path = true := by
  simp only [controlroots, List.mem_append, List.mem_map, List.mem_filter] at hd
  rcases hd with hd | ⟨r, ⟨hr, hrefused⟩, rfl⟩
  · exact subtreecontrol_of_fixedroots tools hd h
  · have happ : appipccontrolpath path = true := List.any_eq_true.mpr ⟨r, hr, h⟩
    simp [subtreecontrol, happ, appipctoolpath_of_within hr h, hrefused]

theorem subtreecontrol_of_alias {root path : Str} (tools : List Str)
    (hr : controlaliaspath root = true) (h : within root path = true) :
    subtreecontrol tools path = true := by
  have hp : controlaliaspath path = true := by
    rcases (within_iff root path).mp h with rfl | ⟨t, rfl⟩
    · exact hr
    · exact ((downward_prefixed _).or (downward_prefixed _)) root t hr
  simp [subtreecontrol, hp]

theorem controls_refused {q : Str} {tools : List Str} (h : Controls tools q) :
    subtreecontrol tools (asciilower q) = true ∨ within "/n/ui" (asciilower q) = true := by
  obtain ⟨d, hd, a, ha, hw⟩ := h
  have hlow := asciilower_within hw
  rcases ha with rfl | halias
  · rw [asciilower_controlroots hd] at hlow
    exact Or.inl (subtreecontrol_of_controlroots hd hlow)
  · cases halias with
    | @toolctl id rest _ _ =>
      refine Or.inl (subtreecontrol_of_alias tools ?_ hlow)
      have hp : prefixed (asciilower ("/mnt/toolctl." ++ id ++ rest)) "/mnt/toolctl." = true :=
        (prefixed_iff _ _).mpr ⟨asciilower (id ++ rest), by
          rw [List.append_assoc, asciilower_append]; rfl⟩
      simp only [controlaliaspath, hp, Bool.true_or]
    | @tool id rest _ _ =>
      refine Or.inl (subtreecontrol_of_alias tools ?_ hlow)
      have hp : prefixed (asciilower ("/tool." ++ id ++ rest)) "/tool." = true :=
        (prefixed_iff _ _).mpr ⟨asciilower (id ++ rest), by
          rw [List.append_assoc, asciilower_append]; rfl⟩
      simp only [controlaliaspath, hp, Bool.or_true]
    | @moved service rest hs _ =>
      rcases moved_cases hd hs with hin | hui
      · have hroots : "/n/" ++ service ++ rest ∈ controlroots tools :=
          List.mem_append_left _ hin
        rw [asciilower_controlroots hroots] at hlow
        exact Or.inl (subtreecontrol_of_controlroots hroots hlow)
      · have huilow := asciilower_within hui
        rcases (within_iff _ _).mp hlow with he | ⟨t, he⟩
        · rw [he]
          exact Or.inr huilow
        · rw [he]
          exact Or.inr (within_below t huilow)

theorem subtreecontrol_refused {p : Str} {tools : List Str}
    (h : subtreecontrol tools (asciilower p) = true) : grantpathallowed p tools = false :=
  refused_of_privileged ((privilegedcontrolpath_iff p tools).mpr (Or.inr h))

theorem withinany_apart {roots : List String} {u : Str} (t : Str)
    (h : (roots.all fun r => !(prefixed u r || prefixed r u)) = true) :
    withinany roots (u ++ t) = false := by
  by_contra hw
  rw [Bool.not_eq_false, withinany, List.any_eq_true] at hw
  obtain ⟨r, hr, hw⟩ := hw
  have hapart := List.all_eq_true.mp h r hr
  rw [Bool.not_eq_true'] at hapart
  simpa only [prefixed_apart t hapart, Bool.false_eq_true] using prefixed_of_within hw

theorem dangerous_apart (t : Str) :
    (dangerous.any fun d => within d (lit "/n/ui" ++ t)) = false := by
  rw [List.any_eq_false]
  intro d hd hw
  have hapart : ∀ d ∈ dangerous, (prefixed (lit "/n/ui") d || prefixed d (lit "/n/ui")) = false := by
    decide
  simpa only [prefixed_apart t (hapart d hd), Bool.false_eq_true] using prefixed_of_within hw

theorem beq_apart {u p : Str} (t : Str) (h : (prefixed u p || prefixed p u) = false) :
    (u ++ t == p) = false := by
  by_contra he
  rw [Bool.not_eq_false, beq_iff_eq] at he
  have hp : prefixed (u ++ t) p = true := (prefixed_iff _ _).mpr ⟨[], by simp [he]⟩
  simp [prefixed_apart t h] at hp

theorem oldui_allowed {p : Str} (tools : List Str) (t : Str)
    (h : asciilower p = lit "/n/ui" ++ t) : grantpathallowed p tools = true := by
  have hambient : ambientauthoritypath (lit "/n/ui" ++ t) = false := by
    simp (disch := decide) [ambientauthoritypath, withinany_apart, prefixed_apart, beq_apart]
  have hmail : directmailsendpath (lit "/n/ui" ++ t) = false := by
    simp (disch := decide) [directmailsendpath, prefixed_apart, beq_apart]
  have hpriv : privilegedcontrolpath (lit "/n/ui" ++ t) tools = false := by
    have hidem : asciilower (lit "/n/ui" ++ t) = lit "/n/ui" ++ t := by
      rw [← h, asciilower_idem]
    simp (disch := decide) [privilegedcontrolpath, hidem, hambient, dangerous_apart,
      reservedrootpath, controlaliaspath, walletcontrolpath_eq, ftreecontrolpath,
      tmpveltrointernalpath, appipccontrolpath, uiagentcontrolpath, llmctlcontrolpath,
      auditcontrolpath, calendarcontrolpath, fixedservicecontrolpath, withinany_apart,
      prefixed_apart, beq_apart]
  simp [grantpathallowed, h, hpriv, hmail, hambient]

theorem oldui_controls {p : Str} (tools : List Str) (h : within "/n/ui" p = true) :
    Controls tools p :=
  ⟨lit "/mnt/ui", List.mem_append_left _ (by decide), lit "/n/ui",
    Or.inr (.moved "ui" [] (by decide) (Or.inl rfl)), h⟩

/-- What a caller of `validatepath` and `grantpathallowed` relies on: an
accepted path reaches no control root under any spelling, the answer does not
depend on ASCII case, and a refused path refuses its subtree unless it is one
of the exact entries. -/
structure Sound (p : Str) (tools : List Str) : Prop where
  guarded : validatepath p = none → grantpathallowed p tools = true →
    ∀ q, asciilower q = asciilower p → ¬Controls tools q
  caseless : ∀ q, asciilower q = asciilower p →
    grantpathallowed q tools = grantpathallowed p tools
  closed : ∀ r s, p = r ++ '/' :: s → privilegedcontrolpath r tools = true →
    exactcontrol (asciilower r) = false → grantpathallowed p tools = false

end Infernode.Veltro.Grant
