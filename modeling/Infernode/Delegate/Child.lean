import Infernode.Delegate.Server

/-!
# The child

`init` reads its options and starts a server with the tools that the other words name.
Started with the arguments of a provision request it has those tools, the grants of the
request with the first of each path, and nothing else.
-/

namespace Infernode.Delegate

open Limbo Veltro.Grant
open Tools (Registry)

inductive Role
  | toplevel
  | child
  deriving DecidableEq

def Role.text : Role → Str
  | .toplevel => "toplevel"
  | .child => "child"

structure Conf where
  verbose : Bool
  agentrole : Role
  mountpt : Str
  budget : List Str
  extpaths : List Str
  boundpaths : List BoundPath
  extgrants : ∀ p ∈ extpaths, Grantable p
  grants : ∀ b ∈ boundpaths, Grantable b.path

def Conf.start : Conf where
  verbose := false
  agentrole := .toplevel
  mountpt := "/tool"
  budget := []
  extpaths := []
  boundpaths := []
  extgrants := by simp
  grants := by simp

def addgrant (boundpaths : List BoundPath) (b : BoundPath) : List BoundPath :=
  if (findboundpath boundpaths b.path).isNone then b :: boundpaths else boundpaths

theorem mem_addgrant {bs : List BoundPath} {b c : BoundPath} (h : c ∈ addgrant bs b) :
    c = b ∨ c ∈ bs := by
  rw [addgrant] at h
  split_ifs at h
  · exact List.mem_cons.mp h
  · exact .inr h

/-- Option `p`; `none` is the exception that ends the server. -/
def Conf.optpath (conf : Conf) (parg : Str) : Option Conf :=
  let pp := splitpathperm parg
  if hv : validatepath pp.1 ≠ none then none
  else if ha : bindpathallowed pp.1 = false then none
  else if hs : pp.1 = scratch then some conf
  else
    have hp : Grantable pp.1 := ⟨not_not.mp hv, by simpa using ha, hs⟩
    if (permtail ':' parg).isNone then
      some { conf with extpaths := pp.1 :: conf.extpaths
                       extgrants := List.forall_mem_cons.mpr ⟨hp, conf.extgrants⟩ }
    else
      some { conf with boundpaths := addgrant conf.boundpaths ⟨pp.1, pp.2⟩
                       grants := fun b hb => (mem_addgrant hb).elim
                         (fun h => by rw [h]; exact hp) (conf.grants b) }

def Conf.optrole (conf : Conf) (rarg : Str) : Option Conf :=
  if rarg = Role.toplevel.text then some { conf with agentrole := .toplevel }
  else if rarg = Role.child.text then some { conf with agentrole := .child }
  else none

def Conf.setopt (conf : Conf) (o : Char) (a : Arg) : Option (Conf × Arg) :=
  match o with
  | 'D' => some (conf, a)
  | 'v' => some ({ conf with verbose := true }, a)
  | 'r' => do
    let (rarg, a) ← a.earg
    let conf ← conf.optrole rarg
    some (conf, a)
  | 'N' => some (conf, a)
  | 'm' => do
    let (marg, a) ← a.earg
    some ({ conf with mountpt := marg }, a)
  | 'p' => do
    let (parg, a) ← a.earg
    let conf ← conf.optpath parg
    some (conf, a)
  | 'a' => do
    let (_, a) ← a.earg
    some (conf, a)
  | 'b' => do
    let (barg, a) ← a.earg
    some ({ conf with budget := (tokenize barg [',']).reverse ++ conf.budget }, a)
  | _ => none

theorem Conf.setopt_size {conf conf' : Conf} {o : Char} {a a' : Arg}
    (h : conf.setopt o a = some (conf', a')) : a'.size ≤ a.size := by
  have hearg {f : Str → Option Conf}
      (h : (a.earg.bind fun x => (f x.1).bind fun c => some (c, x.2)) = some (conf', a')) :
      a'.size ≤ a.size := by
    obtain ⟨⟨w, a1⟩, hw, h⟩ := Option.bind_eq_some_iff.mp h
    obtain ⟨c, -, h⟩ := Option.bind_eq_some_iff.mp h
    simp only [Option.some.injEq, Prod.mk.injEq] at h
    exact h.2 ▸ Arg.earg_size hw
  have hsame {c : Conf} (h : some (c, a) = some (conf', a')) : a'.size ≤ a.size := by
    simp only [Option.some.injEq, Prod.mk.injEq] at h
    exact h.2 ▸ le_rfl
  unfold Conf.setopt at h
  split at h
  · exact hsame h
  · exact hsame h
  · exact hearg (f := conf.optrole) h
  · exact hsame h
  · exact hearg (f := fun marg => some { conf with mountpt := marg }) h
  · exact hearg (f := conf.optpath) h
  · exact hearg (f := fun _ => some conf) h
  · exact hearg (f := fun barg =>
      some { conf with budget := (tokenize barg [',']).reverse ++ conf.budget }) h
  · cases h

def getopts (conf : Conf) (a : Arg) : Option (Conf × List Str) :=
  if _ho : a.opt.1 = noopt then some (conf, a.opt.2.args)
  else
    match _hs : conf.setopt a.opt.1 a.opt.2 with
    | none => none
    | some (conf, a') => getopts conf a'
termination_by a.size
decreasing_by exact (Conf.setopt_size _hs).trans_lt (Arg.opt_size _ho)

def init (loads : Str → Bool) (argv : List Str) : Option Server :=
  match getopts Conf.start ⟨[], argv.tail⟩ with
  | none => none
  | some (conf, args) =>
    if args = [] then none
    else if (Tools.inittools loads args).tools = [] then none
    else some {
      reg := Tools.inittools loads args
      budget := conf.budget
      extpaths := conf.extpaths
      boundpaths := conf.boundpaths
      provisionstates := []
      verbose := conf.verbose
      known := (Tools.inittools_known loads args).1
      extgrants := conf.extgrants
      grants := conf.grants }

theorem getopts_flag {conf conf' : Conf} {o : Char} {args args' : List Str} (ho : o ≠ '-')
    (hend : o ≠ noopt) (hset : conf.setopt o ⟨[], args⟩ = some (conf', ⟨[], args'⟩)) :
    getopts conf ⟨[], ['-', o] :: args⟩ = getopts conf' ⟨[], args'⟩ := by
  have hopt := Arg.opt_flag ho args
  rw [getopts, dif_neg (by rw [hopt]; exact hend)]
  split
  · rename_i hnone
    rw [hopt] at hnone
    exact absurd (hset.symm.trans hnone) (by simp)
  · rename_i conf1 a1 hsome
    rw [hopt] at hsome
    obtain ⟨rfl, rfl⟩ := Prod.mk.inj (Option.some.inj (hset.symm.trans hsome))
    rfl

theorem getopts_words (conf : Conf) {args : List Str}
    (h : ∀ w ∈ args.head?, w.head? ≠ some '-') :
    getopts conf ⟨[], args⟩ = some (conf, args) := by
  cases args with
  | nil => rw [getopts, Arg.opt_nil]; rfl
  | cons w args =>
    have hopt := Arg.opt_word (h w rfl) args
    rw [getopts, dif_pos (by rw [hopt]), hopt]

theorem permtail_grantarg {b : BoundPath} (hb : b.path ≠ []) :
    permtail ':' (grantarg b) = some b.perm := by
  have hlen : b.perm.text.length = 2 := by cases b.perm <;> rfl
  have hpos : 0 < b.path.length := List.length_pos_of_ne_nil hb
  have hsize : (grantarg b).length = b.path.length + 3 := by
    simp [grantarg, hlen, lit]
  have hcolon : (grantarg b)[(grantarg b).length - 3]? = some ':' := by
    rw [hsize, Nat.add_sub_cancel, grantarg, List.append_assoc,
      List.getElem?_append_right le_rfl, Nat.sub_self]
    rfl
  have hdrop : (grantarg b).drop ((grantarg b).length - 2) = b.perm.text := by
    rw [hsize, show b.path.length + 3 - 2 = (b.path ++ lit ":").length by simp [lit], grantarg,
      List.drop_left]
  rw [permtail, if_pos ⟨by omega, hcolon⟩, hdrop]
  cases b.perm <;> rfl

theorem splitpathperm_grantarg {b : BoundPath} (hb : b.path ≠ []) :
    splitpathperm (grantarg b) = (b.path, b.perm) := by
  have hlen : b.perm.text.length = 2 := by cases b.perm <;> rfl
  have hsize : (grantarg b).length - 3 = b.path.length := by
    simp [grantarg, hlen, lit]
  rw [splitpathperm, permtail_grantarg hb]
  simp only [hsize]
  rw [grantarg, List.append_assoc, List.take_left]

theorem Grantable.ne_nil {p : Str} (h : Grantable p) : p ≠ [] := by
  rintro rfl
  exact absurd h.1 (by decide)

theorem setopt_grant (conf : Conf) {b : BoundPath} (hb : Grantable b.path) (args : List Str) :
    ∃ conf', conf.setopt 'p' ⟨[], grantarg b :: args⟩ = some (conf', ⟨[], args⟩) ∧
      conf'.boundpaths = addgrant conf.boundpaths b ∧ conf'.extpaths = conf.extpaths ∧
      conf'.budget = conf.budget ∧ conf'.verbose = conf.verbose := by
  have hpath : conf.optpath (grantarg b) =
      some { conf with
        boundpaths := addgrant conf.boundpaths b
        grants := fun c hc => (mem_addgrant hc).elim (fun h => by rw [h]; exact hb)
          (conf.grants c) } := by
    have htail := permtail_grantarg hb.ne_nil
    have hsplit := splitpathperm_grantarg hb.ne_nil
    simp [Conf.optpath, hsplit, htail, hb.1, hb.2.1, hb.2.2]
  have hopt : conf.setopt 'p' ⟨[], grantarg b :: args⟩ =
      (conf.optpath (grantarg b)).bind fun conf => some (conf, ⟨[], args⟩) := rfl
  rw [hpath] at hopt
  exact ⟨_, hopt, rfl, rfl, rfl, rfl⟩

theorem setopt_role (conf : Conf) (args : List Str) :
    conf.setopt 'r' ⟨[], lit "child" :: args⟩ =
      some ({ conf with agentrole := .child }, ⟨[], args⟩) := by
  have hrole : conf.optrole (lit "child") = some { conf with agentrole := .child } := by
    rw [Conf.optrole, if_neg (by decide), if_pos (by decide)]
  have hopt : conf.setopt 'r' ⟨[], lit "child" :: args⟩ =
      (conf.optrole (lit "child")).bind fun conf => some (conf, ⟨[], args⟩) := rfl
  rw [hopt, hrole, Option.bind_some]

theorem setopt_activity (conf : Conf) (w : Str) (args : List Str) :
    conf.setopt 'a' ⟨[], w :: args⟩ = some (conf, ⟨[], args⟩) := rfl

theorem setopt_mount (conf : Conf) (w : Str) (args : List Str) :
    conf.setopt 'm' ⟨[], w :: args⟩ = some ({ conf with mountpt := w }, ⟨[], args⟩) := rfl

theorem getopts_grants {caps : List BoundPath} (hcaps : ∀ b ∈ caps, Grantable b.path)
    {words : List Str} (hw : ∀ w ∈ words.head?, w.head? ≠ some '-') (conf : Conf) :
    ∃ conf', getopts conf ⟨[], caps.flatMap (fun b => [lit "-p", grantarg b]) ++ words⟩ =
        some (conf', words) ∧
      conf'.boundpaths = caps.foldl addgrant conf.boundpaths ∧ conf'.extpaths = conf.extpaths ∧
      conf'.budget = conf.budget := by
  induction caps generalizing conf with
  | nil => exact ⟨conf, getopts_words conf hw, rfl, rfl, rfl⟩
  | cons b caps ih =>
    obtain ⟨conf1, hset, hbound1, hext1, hbud1, -⟩ := setopt_grant conf (hcaps b (by simp))
      (caps.flatMap (fun b => [lit "-p", grantarg b]) ++ words)
    obtain ⟨conf2, hget, hbound2, hext2, hbud2⟩ :=
      ih (fun b' hb' => hcaps b' (by simp [hb'])) conf1
    refine ⟨conf2, ?_, ?_, hext2.trans hext1, hbud2.trans hbud1⟩
    · exact (getopts_flag (by decide) (by decide) hset).trans hget
    · rw [hbound2, hbound1, List.foldl_cons]

theorem foldl_grantargs (caps : List BoundPath) (rargs : List Str) :
    caps.foldl (fun rargs bp => lit "-p" :: grantarg bp :: rargs) rargs =
      caps.reverse.flatMap (fun b => [lit "-p", grantarg b]) ++ rargs := by
  induction caps generalizing rargs with
  | nil => rfl
  | cons b caps ih => simp [ih]

theorem foldl_words (toollist rargs : List Str) :
    toollist.foldl (fun rargs t => t :: rargs) rargs = toollist.reverse ++ rargs := by
  induction toollist generalizing rargs with
  | nil => rfl
  | cons t toollist ih => simp [ih]

theorem childargs_eq (verbose : Bool) (id : ℕ) (toollist : List Str) (caps : List BoundPath) :
    childargs verbose id toollist caps =
      lit "tools9p" :: ((if verbose then [lit "-v"] else []) ++
        lit "-r" :: lit "child" :: lit "-a" :: decimal id :: lit "-m" :: mountpoint id ::
          (caps.reverse.flatMap (fun b => [lit "-p", grantarg b]) ++ toollist.reverse)) := by
  rw [childargs, foldl_words, foldl_grantargs, List.append_nil]
  cases verbose <;> rfl

theorem getopts_childargs (verbose : Bool) (id : ℕ) {toollist : List Str} {caps : List BoundPath}
    (htools : ∀ t ∈ toollist, t.head? ≠ some '-') (hcaps : ∀ b ∈ caps, Grantable b.path) :
    ∃ conf, getopts Conf.start ⟨[], (childargs verbose id toollist caps).tail⟩ =
        some (conf, toollist.reverse) ∧
      conf.boundpaths = caps.reverse.foldl addgrant [] ∧ conf.extpaths = [] ∧ conf.budget = [] := by
  have hwords : ∀ w ∈ toollist.reverse.head?, w.head? ≠ some '-' :=
    fun w hw => htools w (List.mem_reverse.mp (List.mem_of_mem_head? hw))
  have hrest (conf : Conf) (hb : conf.boundpaths = []) (he : conf.extpaths = [])
      (hbud : conf.budget = []) :
      ∃ conf', getopts conf ⟨[], lit "-r" :: lit "child" :: lit "-a" :: decimal id :: lit "-m" ::
          mountpoint id :: (caps.reverse.flatMap (fun b => [lit "-p", grantarg b]) ++
            toollist.reverse)⟩ = some (conf', toollist.reverse) ∧
        conf'.boundpaths = caps.reverse.foldl addgrant [] ∧ conf'.extpaths = [] ∧
        conf'.budget = [] := by
    obtain ⟨conf', hget, hb', he', hbud'⟩ :=
      getopts_grants (fun b hb => hcaps b (List.mem_reverse.mp hb)) hwords
        { conf with agentrole := .child, mountpt := mountpoint id }
    refine ⟨conf', ?_, by rw [hb', hb], he'.trans he, hbud'.trans hbud⟩
    calc getopts conf _
        = getopts { conf with agentrole := .child } _ :=
          getopts_flag (by decide) (by decide) (setopt_role conf _)
      _ = getopts { conf with agentrole := .child } _ :=
          getopts_flag (by decide) (by decide) (setopt_activity _ (decimal id) _)
      _ = getopts { conf with agentrole := .child, mountpt := mountpoint id } _ :=
          getopts_flag (by decide) (by decide) (setopt_mount _ (mountpoint id) _)
      _ = some (conf', toollist.reverse) := hget
  rw [childargs_eq, List.tail_cons]
  cases verbose with
  | false => exact hrest Conf.start rfl rfl rfl
  | true =>
    obtain ⟨conf, hget, hfields⟩ := hrest { Conf.start with verbose := true } rfl rfl rfl
    exact ⟨conf, (getopts_flag (by decide) (by decide) rfl).trans hget, hfields⟩

end Infernode.Delegate
