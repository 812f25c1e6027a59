import FramedRelay.Proofs.Exchange.Steps

/-!
# The connection of an exchange

How often the steps that lead to a stage open a connection, and how often they release one, is
read off the stage (`Stage.opens`, `Stage.releases`): an exchange that dials has done neither, one
that holds a connection has opened it, and one that has ended has released what it opened. A step
changes these numbers as its effect says (`Stage.Passage.opens`, `Stage.Passage.releases`).

The connection that is opened is the one at the first address that accepts
(`Attempt.accepted?`), and at the end it has been shut down once more than when it was accepted
(`Stage.StemsFrom`).
-/

namespace FramedRelay

/-! ## Shutting down -/

/-- The operation closes a link. -/
def Operation.isShutdown : Operation → Bool
  | .shutdown _ => true
  | .arm .. | .read .. | .write .. | .flush _ => false

namespace Link

/-- How often a link was shut down. -/
def shutdowns (l : Link) : Nat := l.history.countP Operation.isShutdown

theorem shutdowns_shutdown (l : Link) : l.shutdown.2.shutdowns = l.shutdowns + 1 := by
  unfold shutdown
  split
  · exact List.countP_cons_of_pos rfl
  · exact List.countP_cons_of_pos rfl

/-- Nothing but closing a link shuts it down. -/
theorem kept_shutdowns (n : Nat) : Kept fun l => l.shutdowns = n where
  ready l d direction h := by
    obtain ⟨clock, arms, history, heq, -, -, rfl | ⟨span?, now, done, rfl⟩⟩ :=
      l.ready_eq d direction
    · rw [heq]
      exact h
    · rw [heq]
      simpa [shutdowns, Operation.isShutdown] using h
  read l room h := by
    obtain ⟨clock, unread, reads, count?, heq, -, -⟩ := l.read_eq room
    rw [heq]
    simpa [shutdowns, Operation.isShutdown] using h
  write l offered h := by
    obtain ⟨clock, writes, pieces, count?, heq, -, -⟩ := l.write_eq offered
    rw [heq]
    simpa [shutdowns, Operation.isShutdown] using h
  flush l h := by
    obtain ⟨clock, flushes, done, heq, -, -⟩ := l.flush_eq
    rw [heq]
    simpa [shutdowns, Operation.isShutdown] using h

end Link

/-! ## Opening and releasing -/

namespace Stage

variable {s s' : Stage} {e : Effect}

/-- How often a connection is opened on the way to a stage. -/
def opens (s : Stage) : Nat := s.connection?.toList.length

/-- How often a connection is released on the way to a stage. -/
def releases (s : Stage) : Nat := if s.isOpen then 0 else s.opens

theorem opens_of_link? {link : Link} (h : s.link? = some link) : s.opens = 1 := by
  rw [opens, connection?_of_link? h]
  rfl

theorem releases_of_link? {link : Link} (h : s.link? = some link) : s.releases = 0 :=
  if_pos (isOpen_of_link? h)

theorem releases_of_ended {result : Except Stop Bytes} (h : s.result? = some result) :
    s.releases = s.opens := by
  cases s with
  | ended => rfl
  | dialling | sending | receiving | releasing => cases h

/-- A connection is held from its opening to its release. -/
theorem isOpen_iff_opens : s.isOpen = true ↔ s.opens = 1 ∧ s.releases = 0 := by
  cases s with
  | dialling => simp [isOpen, link?, opens, connection?]
  | sending | receiving | releasing =>
    exact ⟨fun _ => ⟨opens_of_link? rfl, releases_of_link? rfl⟩, fun _ => rfl⟩
  | ended result clock link? =>
    constructor
    · intro h
      cases h
    · rintro ⟨hopens, hreleases⟩
      rw [releases_of_ended rfl, hopens] at hreleases
      cases hreleases

/-- A step opens a connection as its effect says. -/
theorem Passage.opens (h : Passage s e s') : s'.opens = s.opens + [e].count .opened := by
  cases h with
  | refused => rfl
  | exhausted => rfl
  | accepted clock a left last? link s h hs => rw [opens_of_link? hs]; rfl
  | worked s s' link link' hs hs' h => rw [opens_of_link? hs, opens_of_link? hs']; rfl
  | closed => rfl
  | finished => rfl

/-- A step releases a connection as its effect says. -/
theorem Passage.releases (h : Passage s e s') :
    s'.releases = s.releases + [e].count .released := by
  cases h with
  | refused => rfl
  | exhausted => rfl
  | accepted clock a left last? link s h hs => rw [releases_of_link? hs]; rfl
  | worked s s' link link' hs hs' h => rw [releases_of_link? hs, releases_of_link? hs']; rfl
  | closed => rfl
  | finished => rfl

/-- A step changes whether a connection is held as its effect says. -/
theorem Passage.isOpen (h : Passage s e s') :
    s'.isOpen.toNat + [e].count .released = s.isOpen.toNat + [e].count .opened := by
  cases h with
  | refused => rfl
  | exhausted => rfl
  | accepted clock a left last? link s h hs => rw [isOpen_of_link? hs]; rfl
  | worked s s' link link' hs hs' h => rw [isOpen_of_link? hs, isOpen_of_link? hs']; rfl
  | closed => rfl
  | finished => rfl

end Stage

/-! ## From the first address that accepts -/

/-- The connection at the first address that accepts. -/
def Attempt.accepted? (attempts : List Attempt) : Option Link :=
  attempts.findSome? fun a => a.outcome.toOption

theorem Attempt.accepted?_cons_ok {a : Attempt} {left : List Attempt} {link : Link}
    (h : a.outcome = .ok link) : accepted? (a :: left) = some link := by
  simp [accepted?, h, Except.toOption]

theorem Attempt.accepted?_cons_error {a : Attempt} {left : List Attempt} {f : Fault}
    (h : a.outcome = .error f) : accepted? (a :: left) = accepted? left := by
  simp [accepted?, h, Except.toOption]

namespace Stage

variable {s s' : Stage} {e : Effect} {accepted? : Option Link}

/-- The connection of a stage is the one that was accepted, and was shut down once since if it has
been released and never if not. -/
def StemsFrom (accepted? : Option Link) : Stage → Prop
  | dialling _ left _ => Attempt.accepted? left = accepted?
  | sending _ _ link | receiving _ _ link | releasing _ link =>
    accepted?.map Link.shutdowns = some link.shutdowns
  | ended _ _ link? => link?.map Link.shutdowns = accepted?.map fun link => link.shutdowns + 1

theorem stemsFrom_of_link? {link : Link} (h : s.link? = some link) :
    s.StemsFrom accepted? ↔ accepted?.map Link.shutdowns = some link.shutdowns := by
  cases s with
  | dialling => cases h
  | ended => cases h
  | sending | receiving | releasing =>
    obtain rfl := Option.some.inj h
    exact Iff.rfl

theorem StemsFrom.passage (hs : s.StemsFrom accepted?) (h : Passage s e s') :
    s'.StemsFrom accepted? := by
  cases h with
  | refused clock clock' a left last? f h => exact (Attempt.accepted?_cons_error h).symm.trans hs
  | exhausted clock last? result =>
    obtain rfl : none = accepted? := hs
    rfl
  | accepted clock a left last? link s h hlink =>
    rw [stemsFrom_of_link? hlink]
    obtain rfl : some link = accepted? := (Attempt.accepted?_cons_ok h).symm.trans hs
    rfl
  | worked s s' link link' hlink hlink' h =>
    rw [stemsFrom_of_link? hlink] at hs
    rw [stemsFrom_of_link? hlink', h _ (Link.kept_shutdowns link.shutdowns) rfl]
    exact hs
  | closed result link clock =>
    obtain ⟨first, rfl, hfirst⟩ := Option.map_eq_some_iff.1 hs
    simp only [StemsFrom, Option.map_some, Link.shutdowns_shutdown, hfirst]
  | finished => exact hs

/-- Steps from the start lead to stages that stem from the first address that accepts. -/
theorem stemsFrom_iterate_next (c : Config) (payload : Bytes) (clock : Instant)
    (attempts : List Attempt) (k : Nat) :
    ((Exchange.next c)^[k] (.start payload clock attempts)).stage.StemsFrom
      (Attempt.accepted? attempts) := by
  induction k with
  | zero => exact rfl
  | succ k ih =>
    rw [Function.iterate_succ_apply']
    exact ih.passage (passage_step c _ _)

theorem StemsFrom.connection? {result : Except Stop Bytes} (hs : s.StemsFrom accepted?)
    (h : s.result? = some result) :
    s.connection?.map Link.shutdowns = accepted?.map fun link => link.shutdowns + 1 := by
  cases s with
  | ended => exact hs
  | dialling | sending | receiving | releasing => cases h

/-- Where no address accepts there never is a connection. -/
theorem StemsFrom.connection?_eq_none (hs : s.StemsFrom none) : s.connection? = none := by
  cases s with
  | dialling => rfl
  | sending | receiving | releasing => cases hs
  | ended result clock link? => exact Option.map_eq_none_iff.1 hs

theorem StemsFrom.opens {result : Except Stop Bytes} (hs : s.StemsFrom accepted?)
    (h : s.result? = some result) : s.opens = accepted?.toList.length := by
  have hmap := congrArg Option.isSome (hs.connection? h)
  rw [Option.isSome_map, Option.isSome_map] at hmap
  unfold Stage.opens
  cases hc : s.connection? <;> cases ha : accepted? <;> simp_all

end Stage

end FramedRelay
