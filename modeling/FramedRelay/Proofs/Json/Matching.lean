import Mathlib.Data.List.Forall2
import Mathlib.Data.List.Induction
import Mathlib.Data.String.Basic
import FramedRelay.Json.Read

/-!
# Values that match

`Value.Matches R t u` says that `t` and `u` are the same JSON value, up to numbers, which `R`
relates: the same kind of value at every position, the same items in the same order, and the same
keys with values that match. Of several members with one key the last one counts (`Members.last?`),
so the order of the members does not. `Value.MatchesExcept` lets some values match anything.

`Members.ofList` puts members into the order of their keys, as the relay keeps them. That changes
nothing about the last member of a key (`last?_ofList`).
-/

namespace FramedRelay.Json

variable {ν μ κ : Type}

/-! ## Members -/

/-- The value of a key: that of its last member. -/
def Members.last? (key : String) : Members ν → Option (Value ν)
  | [] => none
  | (k, t) :: ms =>
    match Members.last? key ms with
    | some u => some u
    | none => if k = key then some t else none

/-- The members of a list, in the order of their keys. -/
def Members.ofList (ms : Members ν) : Members ν :=
  ms.foldl (fun sorted m => Members.insert m.1 m.2 sorted) []

/-- The keys of the members increase. -/
def Members.Sorted (ms : Members ν) : Prop := ms.Pairwise fun m n => m.1 < n.1

namespace Members

variable {key : String} {t : Value ν} {ms ns : Members ν}

theorem last?_append (key : String) (ms ns : Members ν) :
    last? key (ms ++ ns) = (last? key ns).or (last? key ms) := by
  induction ms with
  | nil => cases h : last? key ns <;> simp [last?, h]
  | cons m ms ih =>
    obtain ⟨k, t⟩ := m
    simp only [List.cons_append, last?, ih]
    cases last? key ns <;> rfl

theorem last?_eq_none (h : ∀ m ∈ ms, m.1 ≠ key) : last? key ms = none := by
  induction ms with
  | nil => rfl
  | cons m ms ih =>
    obtain ⟨k, t⟩ := m
    rw [last?, ih fun m hm => h m (by simp [hm]), if_neg (h (k, t) (by simp))]

theorem mem_insert {m : String × Value ν} (h : m ∈ insert key t ms) : m = (key, t) ∨ m ∈ ms := by
  induction ms with
  | nil => simpa [insert] using h
  | cons n ms ih =>
    obtain ⟨k, u⟩ := n
    simp only [insert] at h
    split at h
    · simpa using h
    · split at h
      · rcases List.mem_cons.1 h with rfl | h
        · simp
        · rcases ih h with h | h <;> simp [h]
      · rcases List.mem_cons.1 h with rfl | h <;> simp_all

theorem Sorted.insert (h : Sorted ms) (key : String) (t : Value ν) :
    Sorted (insert key t ms) := by
  induction ms with
  | nil => exact List.pairwise_singleton _ _
  | cons n ms ih =>
    obtain ⟨k, u⟩ := n
    obtain ⟨hk, hms⟩ := List.pairwise_cons.1 h
    simp only [Members.insert]
    split
    · next hlt =>
      refine List.pairwise_cons.2 ⟨fun m hm => ?_, h⟩
      rcases List.mem_cons.1 hm with rfl | hm
      · exact hlt
      · exact hlt.trans (hk m hm)
    · split
      · next hlt =>
        refine List.pairwise_cons.2 ⟨fun m hm => ?_, ih hms⟩
        rcases mem_insert hm with rfl | hm
        · exact hlt
        · exact hk m hm
      · next hge hle =>
        have heq : key = k := le_antisymm (not_lt.1 hle) (not_lt.1 hge)
        exact List.pairwise_cons.2 ⟨fun m hm => heq ▸ hk m hm, hms⟩

/-- A member that is put in takes the place of the one with its key. -/
theorem last?_insert (h : Sorted ms) (key k : String) (t : Value ν) :
    last? k (insert key t ms) = if key = k then some t else last? k ms := by
  induction ms with
  | nil => simp [insert, last?]
  | cons n ms ih =>
    obtain ⟨k', u⟩ := n
    obtain ⟨hk, hms⟩ := List.pairwise_cons.1 h
    have hnone : last? k' ms = none := last?_eq_none fun m hm => (hk m hm).ne'
    simp only [insert]
    split
    · next hlt =>
      have hall : last? key ((k', u) :: ms) = none := last?_eq_none fun m hm => by
        rcases List.mem_cons.1 hm with rfl | hm
        · exact hlt.ne'
        · exact (hlt.trans (hk m hm)).ne'
      rw [last?]
      split
      · next h =>
        rw [if_neg (by rintro rfl; simp [hall] at h), h]
      · next h => simp [h]
    · split
      · next hlt =>
        rw [last?, ih hms, last?]
        split_ifs <;> simp_all
      · next hge hle =>
        obtain rfl : key = k' := le_antisymm (not_lt.1 hle) (not_lt.1 hge)
        rw [last?, last?]
        by_cases heq : key = k
        · subst heq; simp [hnone]
        · simp [heq]

theorem sorted_ofList (ms : Members ν) : Sorted (ofList ms) := by
  induction ms using List.reverseRecOn with
  | nil => exact List.Pairwise.nil
  | append_singleton ms m ih =>
    rw [ofList, List.foldl_append]
    exact Sorted.insert ih m.1 m.2

/-- The last member of a key is the one that is kept. -/
theorem last?_ofList (key : String) (ms : Members ν) :
    last? key (ofList ms) = last? key ms := by
  induction ms using List.reverseRecOn with
  | nil => rfl
  | append_singleton ms m ih =>
    have hstep : ofList (ms ++ [m]) = insert m.1 m.2 (ofList ms) := by
      rw [ofList, List.foldl_append]
      rfl
    rw [hstep, last?_insert (sorted_ofList ms), ih, last?_append]
    simp only [last?]
    split_ifs <;> rfl

end Members

/-! ## Values -/

/-- The same JSON value, with numbers that `R` relates, except where `exempt` holds. -/
inductive Value.MatchesExcept (exempt : Value ν → Prop) (R : ν → μ → Prop) :
    Value ν → Value μ → Prop
  | exempt {t : Value ν} (h : exempt t) (u : Value μ) : MatchesExcept exempt R t u
  | null : MatchesExcept exempt R .null .null
  | bool (b : Bool) : MatchesExcept exempt R (.bool b) (.bool b)
  | number {x : ν} {y : μ} (h : R x y) : MatchesExcept exempt R (.number x) (.number y)
  | string (s : String) : MatchesExcept exempt R (.string s) (.string s)
  | array {ts : List (Value ν)} {us : List (Value μ)} (hlength : ts.length = us.length)
      (h : ∀ i (ht : i < ts.length) (hu : i < us.length), MatchesExcept exempt R ts[i] us[i]) :
      MatchesExcept exempt R (.array ts) (.array us)
  | object {ms : Members ν} {ns : Members μ}
      (hkeys : ∀ key, (Members.last? key ms).isSome = (Members.last? key ns).isSome)
      (h : ∀ key t u, Members.last? key ms = some t → Members.last? key ns = some u →
        MatchesExcept exempt R t u) :
      MatchesExcept exempt R (.object ms) (.object ns)

/-- The same JSON value, with numbers that `R` relates. -/
abbrev Value.Matches (R : ν → μ → Prop) : Value ν → Value μ → Prop :=
  MatchesExcept (fun _ => False) R

/-- Lists of members with the same keys, one by one, and values that `M` relates. -/
def Members.Align (M : Value ν → Value μ → Prop) (ms : Members ν) (ns : Members μ) : Prop :=
  List.Forall₂ (fun m n => m.1 = n.1 ∧ M m.2 n.2) ms ns

namespace Members.Align

variable {M : Value ν → Value μ → Prop} {ms : Members ν} {ns : Members μ} {key : String}

theorem isSome_last? (h : Align M ms ns) (key : String) :
    (last? key ms).isSome = (last? key ns).isSome := by
  induction h with
  | nil => rfl
  | @cons m n ms ns hmn h ih =>
    obtain ⟨k, t⟩ := m
    obtain ⟨k', u⟩ := n
    obtain ⟨rfl, -⟩ : k = k' ∧ M t u := hmn
    simp only [last?]
    cases hm : last? key ms <;> cases hn : last? key ns <;> simp_all
    split_ifs <;> rfl

theorem of_last? (h : Align M ms ns) {t : Value ν} {u : Value μ} (ht : last? key ms = some t)
    (hu : last? key ns = some u) : M t u := by
  induction h with
  | nil => cases ht
  | @cons m n ms ns hmn h ih =>
    obtain ⟨k, t'⟩ := m
    obtain ⟨k', u'⟩ := n
    obtain ⟨rfl, htu⟩ : k = k' ∧ M t' u' := hmn
    have hsome : (last? key ms).isSome = (last? key ns).isSome := isSome_last? h key
    simp only [last?] at ht hu
    cases hm : last? key ms <;> cases hn : last? key ns <;> simp_all

end Members.Align

namespace Value.MatchesExcept

variable {exempt : Value ν → Prop} {R : ν → μ → Prop} {S : μ → κ → Prop}

theorem array_of_forall₂ {ts : List (Value ν)} {us : List (Value μ)}
    (h : List.Forall₂ (MatchesExcept exempt R) ts us) :
    MatchesExcept exempt R (.array ts) (.array us) :=
  .array h.length_eq fun _ ht hu => h.get ht hu

/-- Values that match one after another match. -/
theorem trans {t : Value ν} {u : Value μ} {v : Value κ} (h : MatchesExcept exempt R t u)
    (h' : Matches S u v) : MatchesExcept exempt (Relation.Comp R S) t v := by
  induction h generalizing v with
  | exempt h u => exact .exempt h v
  | null =>
    cases h' with
    | exempt h => exact h.elim
    | null => exact .null
  | bool b =>
    cases h' with
    | exempt h => exact h.elim
    | bool => exact .bool b
  | @number x y hxy =>
    cases h' with
    | exempt h => exact h.elim
    | number hyz => exact .number ⟨y, hxy, hyz⟩
  | string s =>
    cases h' with
    | exempt h => exact h.elim
    | string => exact .string s
  | array hlength h ih =>
    cases h' with
    | exempt h => exact h.elim
    | array hlength' h' =>
      exact .array (hlength.trans hlength') fun i ht hv =>
        ih i ht (hlength ▸ ht) (h' i (hlength ▸ ht) hv)
  | @object ms ns hkeys h ih =>
    cases h' with
    | exempt h => exact h.elim
    | object hkeys' h' =>
      refine .object (fun key => (hkeys key).trans (hkeys' key)) fun key t v ht hv => ?_
      obtain ⟨u, hu⟩ : ∃ u, Members.last? key ns = some u :=
        Option.isSome_iff_exists.1 (by rw [hkeys', hv]; rfl)
      exact ih key t u ht hu (h' key u v hu hv)

theorem mono {R' : ν → μ → Prop} (hR : ∀ x y, R x y → R' x y) {t : Value ν} {u : Value μ}
    (h : MatchesExcept exempt R t u) : MatchesExcept exempt R' t u := by
  induction h with
  | exempt h u => exact .exempt h u
  | null => exact .null
  | bool b => exact .bool b
  | number h => exact .number (hR _ _ h)
  | string s => exact .string s
  | array hlength _ ih => exact .array hlength ih
  | object hkeys _ ih => exact .object hkeys ih

end Value.MatchesExcept

/-- An object whose first key stands for embedded text. -/
def Value.IsEmbedded : Value ν → Prop
  | .object ((key, _) :: _) => key = embeddedKey
  | _ => False

end FramedRelay.Json
