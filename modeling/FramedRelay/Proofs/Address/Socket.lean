import FramedRelay.Address.Socket
import FramedRelay.Proofs.Address.Ipv6
import FramedRelay.Text.Blank

/-!
# Reading printed socket addresses

A printed socket address is parsed as itself (`parse?_text`), so two that are printed alike are
the same (`text_injective`). It is printed without blanks (`not_isBlankChar_of_mem_text`).
-/

namespace FramedRelay.Address

variable {c : Char} {cs : List Char}

/-! ## The characters of addresses -/

/-- The characters that addresses are printed with. -/
def IsPlain (c : Char) : Prop :=
  (∃ d < 16, c = Nat.digitChar d) ∨ c ∈ ['.', ':', '[', ']', '%']

theorem IsPlain.not_isBlankChar (h : IsPlain c) : isBlankChar c = false := by
  have hdigit : ∀ d < 16, isBlankChar (Nat.digitChar d) = false := by decide
  have hsign : ['.', ':', '[', ']', '%'].all (fun c => !isBlankChar c) = true := by decide
  rcases h with ⟨d, hd, rfl⟩ | h
  · exact hdigit d hd
  · simpa using List.all_eq_true.1 hsign c h

theorem isPlain_of_mem_toDigits {base n : ℕ} (hbase : 1 < base) (hle : base ≤ 16)
    (h : c ∈ Nat.toDigits base n) : IsPlain c := by
  obtain ⟨d, hd, rfl⟩ := exists_digitChar_of_mem_toDigits hbase h
  exact Or.inl ⟨d, Nat.lt_of_lt_of_le hd hle, rfl⟩

theorem Ipv4.isPlain_of_mem_text {x : Ipv4} (h : c ∈ x.text) : IsPlain c := by
  have hdigit {n : ℕ} (h : c ∈ Nat.toDigits 10 n) : IsPlain c :=
    isPlain_of_mem_toDigits (by decide) (by decide) h
  simp only [text, List.mem_append, List.mem_cons] at h
  rcases h with ((h | rfl | h) | rfl | h) | rfl | h
  · exact hdigit h
  · exact Or.inr (by decide)
  · exact hdigit h
  · exact Or.inr (by decide)
  · exact hdigit h
  · exact Or.inr (by decide)
  · exact hdigit h

theorem Ipv6.isPlain_of_mem_text {x : Ipv6} (h : c ∈ x.text) : IsPlain c := by
  have hcolon : IsPlain ':' := Or.inr (by decide)
  have hgroups {gs : List UInt16} (h : c ∈ groupsText gs) : IsPlain c := by
    rw [groupsText_eq] at h
    rcases mem_colonText h with ⟨g, hg⟩ | rfl
    · exact isPlain_of_mem_toDigits (by decide) (by decide) hg
    · exact hcolon
  unfold text textOf at h
  split at h
  · rcases List.mem_append.1 h with h | h
    · have hmark : [':', ':', 'f', 'f', 'f', 'f', ':'].all
          (fun c => c = ':' ∨ c = Nat.digitChar 15) = true := by decide
      rcases of_decide_eq_true (List.all_eq_true.1 hmark c h) with rfl | rfl
      · exact hcolon
      · exact Or.inl ⟨15, by decide, rfl⟩
    · exact Ipv4.isPlain_of_mem_text h
  · dsimp only at h
    split at h
    · exact hgroups h
    · simp only [List.mem_append, List.mem_cons] at h
      rcases h with h | rfl | rfl | h
      · exact hgroups h
      · exact hcolon
      · exact hcolon
      · exact hgroups h

namespace Socket

theorem isPlain_of_mem_text {a : Socket} (h : c ∈ a.text) : IsPlain c := by
  have hdigit {n : ℕ} (h : c ∈ Nat.toDigits 10 n) : IsPlain c :=
    isPlain_of_mem_toDigits (by decide) (by decide) h
  cases a with
  | v4 host port =>
    simp only [text, List.mem_append, List.mem_cons] at h
    rcases h with h | rfl | h
    · exact Ipv4.isPlain_of_mem_text h
    · exact Or.inr (by decide)
    · exact hdigit h
  | v6 host port scope =>
    have hscope (h : c ∈ scopeText scope) : IsPlain c := by
      unfold scopeText at h
      split at h
      · cases h
      · rcases List.mem_cons.1 h with rfl | h
        · exact Or.inr (by decide)
        · exact hdigit h
    simp only [text, List.mem_append, List.mem_cons] at h
    rcases h with ((rfl | h) | h) | rfl | rfl | h
    · exact Or.inr (by decide)
    · exact Ipv6.isPlain_of_mem_text h
    · exact hscope h
    · exact Or.inr (by decide)
    · exact Or.inr (by decide)
    · exact hdigit h

theorem not_isBlankChar_of_mem_text {a : Socket} (h : c ∈ a.text) : isBlankChar c = false :=
  (isPlain_of_mem_text h).not_isBlankChar

/-! ## Reading -/

theorem port?_toDigits (port : UInt16) :
    port? (':' :: Nat.toDigits 10 port.toNat) = some (port, []) := by
  have hread : number? 10 UInt16.size (Nat.toDigits 10 port.toNat ++ []) =
      some (port.toNat, []) := number?_toDigits (by decide) (by decide) stops_nil port.toNat_lt
  rw [List.append_nil] at hread
  simp [port?, char?, hread]

theorem scope_scopeText (n : UInt32) (cs : List Char) :
    scope (scopeText n ++ ']' :: cs) = (n, ']' :: cs) := by
  unfold scopeText
  split
  · next hzero =>
    rw [hzero]
    rfl
  · have hread : number? 10 UInt32.size (Nat.toDigits 10 n.toNat ++ ']' :: cs) =
        some (n.toNat, ']' :: cs) :=
      number?_toDigits (by decide) (by decide) (stops_cons (by decide) cs) n.toNat_lt
    simp [scope, char?, hread]

/-- The end of a printed address cannot belong to its host. -/
theorem endsGroups_scopeText (n : UInt32) (cs : List Char) :
    Ipv6.EndsGroups (scopeText n ++ ']' :: cs) := by
  unfold scopeText
  split
  · exact ⟨stops_cons (by decide) _, fun _ h => by cases h⟩
  · exact ⟨stops_cons (by decide) _, fun _ h => by cases h⟩

theorem readV4?_text (host : Ipv4) (port : UInt16) :
    readV4? (v4 host port).text = some (v4 host port, []) := by
  have hcolon : Stops 10 (':' :: Nat.toDigits 10 port.toNat) := stops_cons (by decide) _
  simp [readV4?, text, host.read?_text hcolon, port?_toDigits]

theorem readV6?_text (host : Ipv6) (port : UInt16) (n : UInt32) :
    readV6? (v6 host port n).text = some (v6 host port n, []) := by
  have hscope : '.' ∉ scopeText n := by
    unfold scopeText
    split <;> simp [point_notMem_toDigits]
  have hpoint : '.' ∉ scopeText n ++ ']' :: ':' :: Nat.toDigits 10 port.toNat := by
    simp [hscope, point_notMem_toDigits]
  have hhost := host.read?_text hpoint (endsGroups_scopeText n _)
  simp [readV6?, text, char?, hhost, scope_scopeText, port?_toDigits]

/-- A printed address is parsed as itself. -/
theorem parse?_text (a : Socket) : parse? a.text = some a := by
  cases a with
  | v4 host port => simp only [parse?, readV4?_text]
  | v6 host port n =>
    have hfirst : readV4? (v6 host port n).text = none := rfl
    simp only [parse?, hfirst, readV6?_text]

theorem text_injective : Function.Injective text := fun a b h =>
  Option.some.inj ((parse?_text a).symm.trans ((congrArg parse? h).trans (parse?_text b)))

theorem display_injective : Function.Injective display := fun a b h =>
  text_injective (by simpa [display] using congrArg String.toList h)

end Socket

end FramedRelay.Address
