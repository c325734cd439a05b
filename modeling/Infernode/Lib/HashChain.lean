import Mathlib

/-!
# Hash chains

The chain of a list of texts starts with the hash of a seed and hashes, for each
text, the value before it followed by the text. Where the hash has no collision its
value determines the texts: a value is as long as every other, so the input of a
hash splits in one way only, and the seed is shorter than a value.
-/

namespace Infernode.Lib.HashChain

variable {α : Type*} (hash : List α → List α) (seed : List α)

def extend (prev text : List α) : List α :=
  hash (prev ++ text)

def chain (texts : List (List α)) : List α :=
  texts.foldl (extend hash) (hash seed)

/-- What the chain hashes from `prev` on. -/
def inputsfrom (prev : List α) : List (List α) → List (List α)
  | [] => []
  | text :: texts => (prev ++ text) :: inputsfrom (extend hash prev text) texts

def inputs (texts : List (List α)) : List (List α) :=
  seed :: inputsfrom hash (hash seed) texts

@[simp] theorem chain_append_singleton (texts : List (List α)) (text : List α) :
    chain hash seed (texts ++ [text]) = extend hash (chain hash seed texts) text := by
  simp [chain]

theorem inputsfrom_append (prev : List α) (texts more : List (List α)) :
    inputsfrom hash prev (texts ++ more) =
      inputsfrom hash prev texts ++ inputsfrom hash (texts.foldl (extend hash) prev) more := by
  induction texts generalizing prev with
  | nil => rfl
  | cons text texts ih => simp [inputsfrom, ih]

theorem inputs_append (texts more : List (List α)) :
    inputs hash seed (texts ++ more) =
      inputs hash seed texts ++ inputsfrom hash (chain hash seed texts) more := by
  simp [inputs, inputsfrom_append, chain]

theorem inputs_append_singleton (texts : List (List α)) (text : List α) :
    inputs hash seed (texts ++ [text]) =
      inputs hash seed texts ++ [chain hash seed texts ++ text] :=
  inputs_append hash seed texts [text]

variable {hash seed} {S : Set (List α)} {k : ℕ}

variable (hash seed) in
/-- A value of the chain is the hash of an input. -/
theorem chain_hash (texts : List (List α)) :
    ∃ b ∈ inputs hash seed texts, chain hash seed texts = hash b := by
  induction texts using List.reverseRecOn with
  | nil => exact ⟨seed, by simp [inputs], rfl⟩
  | append_singleton texts text _ =>
    exact ⟨chain hash seed texts ++ text, by simp [inputs_append_singleton], by simp [extend]⟩

theorem chain_length (hlen : ∀ b, (hash b).length = k) (texts : List (List α)) :
    (chain hash seed texts).length = k := by
  obtain ⟨b, -, hb⟩ := chain_hash hash seed texts
  rw [hb, hlen]

/-- A chain with a text in it does not have the value of the seed. -/
theorem chain_ne_seed (hlen : ∀ b, (hash b).length = k) (hseed : seed.length < k)
    (hinj : Set.InjOn hash S) {texts : List (List α)} {text : List α}
    (hS : ∀ b ∈ inputs hash seed (texts ++ [text]), b ∈ S) :
    chain hash seed (texts ++ [text]) ≠ hash seed := by
  intro heq
  rw [chain_append_singleton, extend] at heq
  rw [inputs_append_singleton] at hS
  have hb := hinj (hS _ (by simp)) (hS seed (by simp [inputs])) heq
  have hlength := congrArg List.length hb
  rw [List.length_append, chain_length hlen] at hlength
  omega

/-- Two chains of the same value are of the same texts. -/
theorem chain_binding (hlen : ∀ b, (hash b).length = k) (hseed : seed.length < k)
    (hinj : Set.InjOn hash S) {texts texts' : List (List α)}
    (hS : ∀ b ∈ inputs hash seed texts, b ∈ S) (hS' : ∀ b ∈ inputs hash seed texts', b ∈ S)
    (heq : chain hash seed texts = chain hash seed texts') : texts = texts' := by
  induction texts using List.reverseRecOn generalizing texts' with
  | nil =>
    rcases List.eq_nil_or_concat texts' with rfl | ⟨texts', text', rfl⟩
    · rfl
    · rw [List.concat_eq_append] at hS' heq
      exact absurd heq.symm (chain_ne_seed hlen hseed hinj hS')
  | append_singleton texts text ih =>
    rcases List.eq_nil_or_concat texts' with rfl | ⟨texts', text', rfl⟩
    · exact absurd heq (chain_ne_seed hlen hseed hinj hS)
    · rw [List.concat_eq_append] at hS' heq ⊢
      rw [chain_append_singleton, chain_append_singleton, extend, extend] at heq
      rw [inputs_append_singleton] at hS hS'
      have hb := hinj (hS _ (by simp)) (hS' _ (by simp)) heq
      have hlength : (chain hash seed texts).length = (chain hash seed texts').length := by
        rw [chain_length hlen, chain_length hlen]
      obtain ⟨hprev, htext⟩ := List.append_inj hb hlength
      rw [ih (fun b hb => hS b (by simp [hb])) (fun b hb => hS' b (by simp [hb])) hprev, htext]

end Infernode.Lib.HashChain
