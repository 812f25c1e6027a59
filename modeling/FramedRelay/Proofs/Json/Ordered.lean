import FramedRelay.Proofs.Json.Matching

/-!
# Values with their members arranged

`Value.mapWith arrange f` replaces the numbers of a value by `f` of them and arranges the members of
each object. With the members as they are this is `Value.map`; in the order of their keys, and the
last one of those with one key, it is `Value.ordered`. An arrangement that does not change the last
member of any key gives a value that matches (`matches_mapWith`).

`Value.ordered` is a canonical form. Two lists of members in the order of their keys are equal if
each key has the same value in both (`Members.Sorted.ext`), so values that match are equal when they
are ordered (`Matches.ordered_eq`).

`Value.Within P K depth` bounds a value: its numbers satisfy `P`, its keys `K`, and no more than
`depth` brackets are open at once.
-/

namespace FramedRelay.Json

variable {ν μ κ : Type}

/-! ## Members -/

namespace Members

variable {key : String} {t : Value ν} {ms ns : Members ν}

theorem mem_of_last? (h : last? key ms = some t) : (key, t) ∈ ms := by
  induction ms with
  | nil => cases h
  | cons m ms ih =>
    obtain ⟨k, u⟩ := m
    simp only [last?] at h
    split at h
    · next hrest => exact List.mem_cons_of_mem _ (ih (hrest.trans h))
    · split_ifs at h with hk
      obtain rfl := Option.some.inj h
      exact hk ▸ List.mem_cons_self

theorem last?_map (g : Value ν → Value μ) (key : String) (ms : Members ν) :
    last? key (ms.map fun m => (m.1, g m.2)) = (last? key ms).map g := by
  induction ms with
  | nil => rfl
  | cons m ms ih =>
    obtain ⟨k, u⟩ := m
    simp only [List.map_cons, last?, ih]
    cases last? key ms with
    | some u => rfl
    | none => by_cases hk : k = key <;> simp [hk]

/-- Arranging members adds none. -/
theorem mem_of_mem_ofList {m : String × Value ν} (h : m ∈ ofList ms) : m ∈ ms := by
  induction ms using List.reverseRecOn with
  | nil => exact h
  | append_singleton ms n ih =>
    rw [ofList, List.foldl_append] at h
    rcases mem_insert h with rfl | h
    · simp
    · exact List.mem_append_left _ (ih h)

namespace Sorted

variable {m : String × Value ν}

theorem last?_head (h : Sorted (m :: ms)) : last? m.1 (m :: ms) = some m.2 := by
  have hnone : last? m.1 ms = none :=
    last?_eq_none fun n hn => ((List.pairwise_cons.1 h).1 n hn).ne'
  simp [last?, hnone]

theorem last?_of_lt (h : Sorted (m :: ms)) (hkey : key < m.1) : last? key (m :: ms) = none := by
  refine last?_eq_none fun n hn => ?_
  rcases List.mem_cons.1 hn with rfl | hn
  · exact hkey.ne'
  · exact (hkey.trans ((List.pairwise_cons.1 h).1 n hn)).ne'

theorem last?_tail (h : Sorted (m :: ms)) (key : String) :
    last? key ms = if key = m.1 then none else last? key (m :: ms) := by
  by_cases hkey : key = m.1
  · rw [if_pos hkey, hkey]
    exact last?_eq_none fun n hn => ((List.pairwise_cons.1 h).1 n hn).ne'
  · rw [if_neg hkey]
    cases hlast : last? key ms <;> simp [last?, hlast, Ne.symm hkey]

/-- Members in the order of their keys are told by the value of each key. -/
theorem ext : ∀ {ms ns : Members ν}, Sorted ms → Sorted ns →
    (∀ key, last? key ms = last? key ns) → ms = ns
  | [], [], _, _, _ => rfl
  | [], n :: ns, _, hns, h => by
    have := h n.1
    rw [hns.last?_head] at this
    cases this
  | m :: ms, [], hms, _, h => by
    have := h m.1
    rw [hms.last?_head] at this
    cases this
  | m :: ms, n :: ns, hms, hns, h => by
    have hkey : m.1 = n.1 := by
      rcases lt_trichotomy m.1 n.1 with hlt | heq | hlt
      · have := h m.1
        rw [hms.last?_head, hns.last?_of_lt hlt] at this
        cases this
      · exact heq
      · have := h n.1
        rw [hns.last?_head, hms.last?_of_lt hlt] at this
        cases this
    have hvalue : m.2 = n.2 := by
      have := h m.1
      rw [hms.last?_head, hkey, hns.last?_head] at this
      exact Option.some.inj this
    have htail : ms = ns := by
      refine ext (List.pairwise_cons.1 hms).2 (List.pairwise_cons.1 hns).2 fun key => ?_
      rw [hms.last?_tail, hns.last?_tail, hkey, h]
    rw [htail, Prod.ext hkey hvalue]

end Sorted

end Members

/-! ## Mapping -/

section

variable (arrange : Members μ → Members μ) (f : ν → μ)

mutual

/-- The value with `f` of its numbers, and with the members of each object arranged. -/
def Value.mapWith : Value ν → Value μ
  | .null => .null
  | .bool b => .bool b
  | .number n => .number (f n)
  | .string s => .string s
  | .array ts => .array (Value.itemsWith ts)
  | .object ms => .object (arrange (Value.membersWith ms))

def Value.itemsWith : List (Value ν) → List (Value μ)
  | [] => []
  | t :: ts => t.mapWith :: Value.itemsWith ts

def Value.membersWith : List (String × Value ν) → List (String × Value μ)
  | [] => []
  | (key, t) :: ms => (key, t.mapWith) :: Value.membersWith ms

end

end

/-- The value with `f` of its numbers. -/
abbrev Value.map (f : ν → μ) : Value ν → Value μ := Value.mapWith id f

/-- The value with `f` of its numbers, and with its members as the relay keeps them. -/
abbrev Value.ordered (f : ν → μ) : Value ν → Value μ := Value.mapWith Members.ofList f

namespace Value

variable {arrange : Members μ → Members μ} {f : ν → μ}

theorem itemsWith_eq (ts : List (Value ν)) :
    itemsWith arrange f ts = ts.map (mapWith arrange f) := by
  induction ts with
  | nil => rfl
  | cons t ts ih => rw [itemsWith, ih, List.map_cons]

theorem membersWith_eq (ms : Members ν) :
    membersWith arrange f ms = ms.map fun m => (m.1, m.2.mapWith arrange f) := by
  induction ms with
  | nil => rfl
  | cons m ms ih => rw [membersWith, ih, List.map_cons]

mutual

/-- An arrangement that keeps the last member of each key keeps the value. -/
theorem matches_mapWith
    (harrange : ∀ key ms, Members.last? key (arrange ms) = Members.last? key ms) :
    ∀ t : Value ν, t.Matches (fun x y => f x = y) (t.mapWith arrange f)
  | .null => .null
  | .bool b => .bool b
  | .number _ => .number rfl
  | .string s => .string s
  | .array ts => .array_of_forall₂ (matches_itemsWith harrange ts)
  | .object ms => by
    have h := matches_membersWith harrange ms
    refine .object (fun key => ?_) fun key t u ht hu => ?_
    · rw [harrange, h.isSome_last?]
    · rw [harrange] at hu
      exact h.of_last? ht hu

theorem matches_itemsWith
    (harrange : ∀ key ms, Members.last? key (arrange ms) = Members.last? key ms) :
    ∀ ts : List (Value ν),
      List.Forall₂ (Matches fun x y => f x = y) ts (itemsWith arrange f ts)
  | [] => .nil
  | t :: ts => .cons (matches_mapWith harrange t) (matches_itemsWith harrange ts)

theorem matches_membersWith
    (harrange : ∀ key ms, Members.last? key (arrange ms) = Members.last? key ms) :
    ∀ ms : Members ν,
      Members.Align (Matches fun x y => f x = y) ms (membersWith arrange f ms)
  | [] => .nil
  | (_, t) :: ms => .cons ⟨rfl, matches_mapWith harrange t⟩ (matches_membersWith harrange ms)

end

theorem matches_map (f : ν → μ) (t : Value ν) : t.Matches (fun x y => f x = y) (t.map f) :=
  matches_mapWith (fun _ _ => rfl) t

theorem matches_ordered (f : ν → μ) (t : Value ν) :
    t.Matches (fun x y => f x = y) (t.ordered f) :=
  matches_mapWith Members.last?_ofList t

/-! ## Bounds -/

/-- The numbers of a value satisfy `P`, its keys `K`, and no more than so many brackets are open at
once. -/
inductive Within (P : ν → Prop) (K : String → Prop) : ℕ → Value ν → Prop
  | null (depth : ℕ) : Within P K depth .null
  | bool (depth : ℕ) (b : Bool) : Within P K depth (.bool b)
  | number (depth : ℕ) {x : ν} (h : P x) : Within P K depth (.number x)
  | string (depth : ℕ) (s : String) : Within P K depth (.string s)
  | array {depth : ℕ} {ts : List (Value ν)} (h : ∀ t ∈ ts, Within P K depth t) :
      Within P K (depth + 1) (.array ts)
  | object {depth : ℕ} {ms : Members ν} (hkeys : ∀ m ∈ ms, K m.1)
      (h : ∀ m ∈ ms, Within P K depth m.2) : Within P K (depth + 1) (.object ms)

variable {P P' : ν → Prop} {Q : μ → Prop} {K : String → Prop} {depth : ℕ} {t : Value ν}

theorem Within.mono (hP : ∀ x, P x → P' x) (h : t.Within P K depth) : t.Within P' K depth := by
  induction h with
  | null depth => exact .null depth
  | bool depth b => exact .bool depth b
  | number depth h => exact .number depth (hP _ h)
  | string depth s => exact .string depth s
  | array _ ih => exact .array ih
  | object hkeys _ ih => exact .object hkeys ih

/-- Bounds are kept by an arrangement that adds no members. -/
theorem Within.mapWith (harrange : ∀ ms, ∀ m ∈ arrange ms, m ∈ ms) (h : t.Within P K depth)
    (hf : ∀ x, P x → Q (f x)) : (t.mapWith arrange f).Within Q K depth := by
  induction h with
  | null depth => exact .null depth
  | bool depth b => exact .bool depth b
  | number depth h => exact .number depth (hf _ h)
  | string depth s => exact .string depth s
  | array _ ih =>
    refine .array fun u hu => ?_
    rw [itemsWith_eq] at hu
    obtain ⟨t, ht, rfl⟩ := List.mem_map.1 hu
    exact ih t ht
  | @object _ ms hkeys _ ih =>
    have hmem : ∀ n ∈ arrange (membersWith arrange f ms),
        ∃ m ∈ ms, (m.1, m.2.mapWith arrange f) = n := by
      intro n hn
      have := harrange _ n hn
      rw [membersWith_eq] at this
      exact List.mem_map.1 this
    refine .object (fun n hn => ?_) fun n hn => ?_
    · obtain ⟨m, hm, rfl⟩ := hmem n hn
      exact hkeys m hm
    · obtain ⟨m, hm, rfl⟩ := hmem n hn
      exact ih m hm

end Value

/-! ## Canonical forms -/

namespace Value.MatchesExcept

variable {R : ν → μ → Prop} {t : Value ν} {u : Value μ}

theorem symm (h : t.Matches R u) : u.Matches (fun y x => R x y) t := by
  induction h with
  | exempt h => exact h.elim
  | null => exact .null
  | bool b => exact .bool b
  | number h => exact .number h
  | string s => exact .string s
  | array hlength _ ih => exact .array hlength.symm fun i hu ht => ih i ht hu
  | object hkeys _ ih =>
    exact .object (fun key => (hkeys key).symm) fun key u t hu ht => ih key t u ht hu

/-- Numbers that match are within the bounds of the two values. -/
theorem within {P : ν → Prop} {Q : μ → Prop} {K L : String → Prop} {depth depth' : ℕ}
    (h : t.Matches R u) (ht : t.Within P K depth) (hu : u.Within Q L depth') :
    t.Matches (fun x y => R x y ∧ P x ∧ Q y) u := by
  induction h generalizing depth depth' with
  | exempt h => exact h.elim
  | null => exact .null
  | bool b => exact .bool b
  | number h =>
    cases ht with
    | number _ hx =>
      cases hu with
      | number _ hy => exact .number ⟨h, hx, hy⟩
  | string s => exact .string s
  | array hlength _ ih =>
    cases ht with
    | array ht =>
      cases hu with
      | array hu =>
        exact .array hlength fun i hi hi' =>
          ih i hi hi' (ht _ (List.getElem_mem hi)) (hu _ (List.getElem_mem hi'))
  | object hkeys _ ih =>
    cases ht with
    | object _ ht =>
      cases hu with
      | object _ hu =>
        exact .object hkeys fun key t u hlast hlast' => ih key t u hlast hlast'
          (ht _ (Members.mem_of_last? hlast)) (hu _ (Members.mem_of_last? hlast'))

/-- Values that match have one canonical form. -/
theorem ordered_eq {f : ν → κ} {g : μ → κ} (h : t.Matches (fun x y => f x = g y) u) :
    t.ordered f = u.ordered g := by
  induction h with
  | exempt h => exact h.elim
  | null => rfl
  | bool b => rfl
  | number h => exact congrArg Value.number h
  | string s => rfl
  | array hlength _ ih =>
    simp only [ordered, mapWith, itemsWith_eq]
    refine congrArg Value.array (List.ext_getElem (by simpa using hlength) fun i hi hi' => ?_)
    rw [List.getElem_map, List.getElem_map]
    exact ih i (by simpa using hi) (by simpa using hi')
  | @object ms ns hkeys _ ih =>
    simp only [ordered, mapWith, membersWith_eq]
    refine congrArg Value.object
      ((Members.sorted_ofList _).ext (Members.sorted_ofList _) fun key => ?_)
    rw [Members.last?_ofList, Members.last?_ofList, Members.last?_map, Members.last?_map]
    have hkey := hkeys key
    cases ht : Members.last? key ms with
    | none =>
      cases hu : Members.last? key ns with
      | none => rfl
      | some u => simp [ht, hu] at hkey
    | some t =>
      cases hu : Members.last? key ns with
      | none => simp [ht, hu] at hkey
      | some u => exact congrArg some (ih key t u ht hu)

end Value.MatchesExcept

end FramedRelay.Json
