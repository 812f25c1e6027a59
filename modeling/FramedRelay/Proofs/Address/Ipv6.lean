import FramedRelay.Address.Ipv6
import FramedRelay.Proofs.Address.Ipv4

/-!
# Reading printed IPv6 addresses

A printed address is read as it was, whatever follows that cannot belong to it (`read?_text`),
in each of its three written forms. Groups are read one after another as long as a group follows
(`readGroups_colonText`), so eight groups are read at once, and two colons end the groups before
them and stand for the zeros that are missing (`read?_gap`). The zeros that printing leaves out
are a run of zeros of the address (`isRun_longestRun`).
-/

namespace FramedRelay.Address.Ipv6

variable {cs rest : List Char} {g : UInt16} {gs before after : List UInt16} {first : Bool}
  {room : ℕ}

/-! ## Groups -/

theorem group?_groupText (g : UInt16) (hrest : Stops 16 rest) :
    group? (groupText g ++ rest) = some (g, rest) := by
  have hwidth : (Nat.toDigits 16 g.toNat).length ≤ 4 :=
    (Nat.length_toDigits_le_iff (by decide) (by decide)).2
      (Nat.lt_of_lt_of_le g.toNat_lt (by decide))
  simp only [group?, groupText, short?_toDigits (by decide) (by decide) hrest hwidth,
    Option.map_some, UInt16.ofNat_toNat]

/-- Groups as they are read: with a colon before each but the first of all. -/
def colonText : Bool → List UInt16 → List Char
  | _, [] => []
  | true, g :: gs => groupText g ++ colonText false gs
  | false, g :: gs => ':' :: (groupText g ++ colonText false gs)

theorem groupsText_eq (gs : List UInt16) : groupsText gs = colonText true gs := by
  fun_induction groupsText gs with
  | case1 => rfl
  | case2 g => exact (List.append_nil _).symm
  | case3 g gs hgs ih =>
    obtain ⟨h, gs, rfl⟩ := List.exists_cons_of_ne_nil hgs
    rw [ih]
    rfl

/-- Groups are written with digits and colons. -/
theorem mem_colonText {c : Char} (h : c ∈ colonText first gs) :
    (∃ g, c ∈ groupText g) ∨ c = ':' := by
  induction gs generalizing first with
  | nil => cases first <;> cases h
  | cons g gs ih =>
    cases first with
    | true => exact (List.mem_append.1 h).elim (fun h => Or.inl ⟨g, h⟩) ih
    | false =>
      rcases List.mem_cons.1 h with rfl | h
      · exact Or.inr rfl
      · exact (List.mem_append.1 h).elim (fun h => Or.inl ⟨g, h⟩) ih

theorem point_notMem_colonText (first : Bool) (gs : List UInt16) : '.' ∉ colonText first gs := by
  intro h
  rcases mem_colonText h with ⟨g, hg⟩ | hcolon
  · exact point_notMem_toDigits (by decide) (by decide) hg
  · exact absurd hcolon (by decide)

theorem separator?_colonText (first : Bool) (g : UInt16) (gs : List UInt16) (rest : List Char) :
    separator? first (colonText first (g :: gs) ++ rest) =
      some (groupText g ++ (colonText false gs ++ rest)) := by
  cases first <;> simp [separator?, colonText, char?]

/-- What follows groups is neither a digit, nor a colon and a digit. -/
structure EndsGroups (rest : List Char) : Prop where
  stops : Stops 16 rest
  noGroup : ∀ cs, rest = ':' :: cs → Stops 16 cs

theorem group?_of_stops (h : Stops 16 rest) : group? rest = none := by
  simp [group?, short?, digits_of_stops h]

/-- Nothing is read if nothing can be, with a colon before it or without. -/
theorem bind_separator?_eq_none {α : Type} {read : List Char → Option α} (h : read cs = none)
    (hcolon : ∀ after, cs = ':' :: after → read after = none) (first : Bool) :
    (separator? first cs).bind read = none := by
  cases first with
  | true => exact h
  | false =>
    cases cs with
    | nil => rfl
    | cons c cs =>
      by_cases hc : ':' = c
      · subst hc
        exact hcolon cs rfl
      · simp [separator?, char?, hc]

theorem EndsGroups.group? (h : EndsGroups rest) (first : Bool) :
    (separator? first rest).bind group? = none :=
  bind_separator?_eq_none (group?_of_stops h.stops)
    (fun after hafter => group?_of_stops (h.noGroup after hafter)) first

theorem stops_colonText (gs : List UInt16) (h : Stops 16 rest) :
    Stops 16 (colonText false gs ++ rest) := by
  cases gs with
  | nil => exact h
  | cons g gs => exact stops_cons (by decide) _

/-- Where there is no point, only groups are read. -/
theorem ipv4_eq_none (h : '.' ∉ cs) (first : Bool) :
    (separator? first cs).bind Ipv4.read? = none := by
  refine bind_separator?_eq_none (Ipv4.read?_eq_none h) (fun after hafter => ?_) first
  subst hafter
  exact Ipv4.read?_eq_none fun hmem => h (List.mem_cons_of_mem ':' hmem)

/-- Groups are read to where they end, if there is room for them. -/
theorem readGroups_colonText (hroom : gs.length ≤ room)
    (hpoint : '.' ∉ colonText first gs ++ rest) (hrest : EndsGroups rest) :
    readGroups room first (colonText first gs ++ rest) = ⟨gs, false, rest⟩ := by
  induction gs generalizing room first with
  | nil =>
    cases room with
    | zero => rfl
    | succ room =>
      have hnone := hrest.group? first
      simp only [colonText, List.nil_append] at hpoint ⊢
      simp only [readGroups, ipv4_eq_none hpoint, ite_self, hnone]
  | cons g gs ih =>
    cases room with
    | zero => cases hroom
    | succ room =>
      have hsep := separator?_colonText first g gs rest
      have hgroup := group?_groupText g (stops_colonText gs hrest.stops)
      have hpoint' : '.' ∉ colonText false gs ++ rest := by
        cases first <;> simp_all [colonText]
      simp only [readGroups, ipv4_eq_none hpoint, ite_self]
      rw [hsep]
      simp only [Option.bind_some, hgroup, ih (Nat.le_of_succ_le_succ hroom) hpoint']

/-! ## Written forms -/

theorem ofGroups?_groups (x : Ipv6) : ofGroups? x.groups = some x :=
  dif_pos x.length_groups

/-- Eight groups are a whole address. -/
theorem read?_groupsText (x : Ipv6) (hpoint : '.' ∉ groupsText x.groups ++ rest)
    (hrest : EndsGroups rest) : read? (groupsText x.groups ++ rest) = some (x, rest) := by
  rw [groupsText_eq] at hpoint ⊢
  have hhead := readGroups_colonText (Nat.le_of_eq x.length_groups) hpoint hrest
  simp only [read?, hhead, if_pos x.length_groups, ofGroups?_groups, Option.bind_eq_bind,
    Option.bind_some]
  rfl

/-- Two colons after groups end them. -/
theorem endsGroups_gap (cs : List Char) : EndsGroups (':' :: ':' :: cs) :=
  ⟨stops_cons (by decide) _, fun _ h => (List.cons.inj h).2 ▸ stops_cons (by decide) _⟩

/-- Two colons stand for the zeros that are missing. -/
theorem read?_gap (x : Ipv6) {zeros : ℕ} (hzeros : 0 < zeros)
    (hx : x.groups = before ++ List.replicate zeros 0 ++ after)
    (hpoint : '.' ∉ groupsText before ++ ':' :: ':' :: (groupsText after ++ rest))
    (hrest : EndsGroups rest) :
    read? (groupsText before ++ ':' :: ':' :: (groupsText after ++ rest)) = some (x, rest) := by
  have hlength : before.length + zeros + after.length = 8 := by
    rw [← x.length_groups, hx]
    simp [Nat.add_assoc]
  have hpoint' : '.' ∉ groupsText after ++ rest := by
    intro h
    simp [h] at hpoint
  rw [groupsText_eq, groupsText_eq] at hpoint ⊢
  rw [groupsText_eq] at hpoint'
  have hhead := readGroups_colonText (by omega : before.length ≤ 8) hpoint (endsGroups_gap _)
  have htail := readGroups_colonText (by omega : after.length ≤ 7 - before.length) hpoint' hrest
  have hbefore : ¬before.length = 8 := by omega
  have hmissing : 8 - before.length - after.length = zeros := by omega
  simp only [read?, hhead, if_neg hbefore, char?, if_true, Option.bind_eq_bind, Option.bind_some,
    htail, hmissing, ← hx, ofGroups?_groups]
  rfl

theorem ofIpv4_lowHalf (high low : UInt16) : ofIpv4 (lowHalf high low) = [high, low] := by
  have hjoin (g : UInt16) :
      UInt16.ofNat (256 * (UInt8.ofNat (g.toNat / 256)).toNat +
        (UInt8.ofNat (g.toNat % 256)).toNat) = g := by
    have hg := g.toNat_lt
    rw [← UInt16.toNat_inj, UInt16.toNat_ofNat', UInt8.toNat_ofNat', UInt8.toNat_ofNat']
    omega
  simp only [ofIpv4, lowHalf, hjoin]

/-- An address that stands for one of the older kind is written as that. -/
theorem read?_mapped (x : Ipv6) {high low : UInt16}
    (hx : x.groups = [0, 0, 0, 0, 0, 0xFFFF, high, low]) (hrest : Stops 10 rest) :
    read? (':' :: ':' :: 'f' :: 'f' :: 'f' :: 'f' :: ':' :: ((lowHalf high low).text ++ rest)) =
      some (x, rest) := by
  have hhead (cs : List Char) :
      readGroups 8 true (':' :: ':' :: cs) = ⟨[], false, ':' :: ':' :: cs⟩ := rfl
  have hlast (y : Ipv4) :
      readGroups 6 false (':' :: (y.text ++ rest)) = ⟨ofIpv4 y, true, rest⟩ := by
    simp [readGroups, separator?, char?, y.read?_text hrest]
  have htail (cs : List Char) : readGroups 7 true ('f' :: 'f' :: 'f' :: 'f' :: ':' :: cs) =
      { readGroups 6 false (':' :: cs) with
        groups := 0xFFFF :: (readGroups 6 false (':' :: cs)).groups } := rfl
  simp only [read?, hhead, char?, if_true, List.length_nil, Nat.sub_zero, htail, hlast,
    ofIpv4_lowHalf, Option.bind_eq_bind, Option.bind_some]
  rw [if_neg (by decide), if_neg (by decide)]
  change (ofGroups? [0, 0, 0, 0, 0, 0xFFFF, high, low]).bind _ = _
  rw [← hx, ofGroups?_groups]
  rfl

/-! ## The zeros that are left out -/

/-- A run is one of zeros among the groups. -/
def IsRun (gs : List UInt16) (r : Run) : Prop :=
  ∃ before after, gs = before ++ List.replicate r.length 0 ++ after ∧ before.length = r.start

/-- A run of zeros is kept where another group ends the search for a longer one. -/
theorem isRun_longestRun_append {done : List UInt16} {current best : Run}
    (hbest : IsRun (done ++ gs) best)
    (hcurrent : ∃ before, done = before ++ List.replicate current.length 0 ∧
      (current.length ≠ 0 → before.length = current.start)) :
    IsRun (done ++ gs) (longestRun done.length current best gs) := by
  induction gs generalizing done current best with
  | nil => exact hbest
  | cons g gs ih =>
    have hsplit : done ++ g :: gs = (done ++ [g]) ++ gs := by simp
    have hlength : done.length + 1 = (done ++ [g]).length := by simp
    rw [longestRun, hlength]
    rw [hsplit] at hbest ⊢
    obtain ⟨before, hdone, hstart⟩ := hcurrent
    by_cases hg : g = 0
    · subst hg
      rw [if_pos rfl]
      generalize hnext : (if current.length = 0 then (⟨done.length, 1⟩ : Run)
        else ⟨current.start, current.length + 1⟩) = next
      have hends : ∃ before, done ++ [0] = before ++ List.replicate next.length 0 ∧
          before.length = next.start := by
        by_cases hlength : current.length = 0
        · rw [if_pos hlength] at hnext
          subst hnext
          exact ⟨done, rfl, rfl⟩
        · rw [if_neg hlength] at hnext
          subst hnext
          refine ⟨before, ?_, hstart hlength⟩
          rw [List.replicate_succ', ← List.append_assoc, ← hdone]
      obtain ⟨before', hdone', hstart'⟩ := hends
      refine ih ?_ ⟨before', hdone', fun _ => hstart'⟩
      split
      · exact ⟨before', gs, by rw [hdone'], hstart'⟩
      · exact hbest
    · rw [if_neg hg]
      exact ih hbest ⟨done ++ [g], by simp, by simp⟩

theorem isRun_longestRun (gs : List UInt16) :
    IsRun gs (longestRun 0 ⟨0, 0⟩ ⟨0, 0⟩ gs) := by
  have hbest : IsRun ([] ++ gs) ⟨0, 0⟩ := ⟨[], gs, rfl, rfl⟩
  exact isRun_longestRun_append hbest ⟨[], rfl, fun _ => rfl⟩

/-- A printed address is read as it was, if what follows cannot belong to it. -/
theorem read?_text (x : Ipv6) (hpoint : '.' ∉ rest) (hrest : EndsGroups rest) :
    read? (x.text ++ rest) = some (x, rest) := by
  unfold text textOf
  split
  · next high low hx =>
    exact read?_mapped x hx (hrest.stops.mono (by decide) (by decide))
  · next hmapped =>
    obtain ⟨before, after, hx, hstart⟩ := isRun_longestRun x.groups
    generalize longestRun 0 ⟨0, 0⟩ ⟨0, 0⟩ x.groups = run at hx hstart
    dsimp only
    split
    · refine read?_groupsText x ?_ hrest
      simp [groupsText_eq, point_notMem_colonText, hpoint]
    · next hlong =>
      have htake : x.groups.take run.start = before := by
        rw [hx, List.append_assoc, ← hstart, List.take_left]
      have hdrop : x.groups.drop (run.start + run.length) = after := by
        rw [hx, ← hstart]
        refine List.drop_left' ?_
        simp
      rw [htake, hdrop, List.append_assoc]
      refine read?_gap x (by omega : 0 < run.length) hx ?_ hrest
      simp [groupsText_eq, point_notMem_colonText, hpoint]

end FramedRelay.Address.Ipv6
