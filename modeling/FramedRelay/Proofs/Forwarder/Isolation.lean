import FramedRelay.Proofs.Forwarder.Exchanges

/-!
# Isolation of exchanges

The happenings that concern one exchange can be told from the others (`own`), and a forwarder to
which only these happen has the same job, at every moment, as one to which all happen
(`Forwarder.jobs_after_own`): the number of open connections is all that exchanges share, and no
step looks at it. `Forwarder.isolated_after` adds what this comes to once an exchange has ended:
its outcome and its connection are those of its run by itself, its caller is told that outcome
unless it was told before that it took too long, and neither the order of the steps nor the other
exchanges make a difference.
-/

namespace FramedRelay

/-- The happenings that concern exchange `i`, as they are on a forwarder of its own, if `n`
exchanges have started before. -/
def own (i : Nat) : Nat → List Happening → List Happening
  | _, [] => []
  | n, .start payload clock attempts :: hs =>
    if n = i then .start payload clock attempts :: own i (n + 1) hs else own i (n + 1) hs
  | n, .step j :: hs => if j = i then .step 0 :: own i n hs else own i n hs
  | n, .expire j :: hs => if j = i then .expire 0 :: own i n hs else own i n hs

namespace Forwarder

variable {f g : Forwarder} {c : Config} {hs : List Happening} {i : Nat}

/-! ## Among others and alone -/

/-- The one job of `g` is job `i` of `f`, and there is none if `f` has no such job. -/
structure Mirrors (i : Nat) (f g : Forwarder) : Prop where
  config : g.config = f.config
  jobs : g.jobs = f.jobs[i]?.toList

namespace Mirrors

theorem of_getElem? {f' : Forwarder} (h : Mirrors i f g) (hconfig : f'.config = f.config)
    (hjobs : f'.jobs[i]? = f.jobs[i]?) : Mirrors i f' g :=
  ⟨h.config.trans hconfig.symm, h.jobs.trans (congrArg Option.toList hjobs.symm)⟩

theorem of_modify {f' g' : Forwarder} {φ : Job → Job} (h : Mirrors i f g)
    (hf : f'.config = f.config) (hg : g'.config = g.config) (hf' : f'.jobs = f.jobs.modify i φ)
    (hg' : g'.jobs = g.jobs.modify 0 φ) : Mirrors i f' g' := by
  refine ⟨(hg.trans h.config).trans hf.symm, ?_⟩
  rw [hg', hf', h.jobs, List.getElem?_modify_eq]
  cases f.jobs[i]? with
  | none => rfl
  | some job => rfl

theorem of_modify_ne {f' : Forwarder} {φ : Job → Job} {j : Nat} (h : Mirrors i f g) (hj : j ≠ i)
    (hf : f'.config = f.config) (hf' : f'.jobs = f.jobs.modify j φ) : Mirrors i f' g :=
  h.of_getElem? hf (by rw [hf', List.getElem?_modify_ne _ _ hj])

/-- All happenings to one forwarder, and those that concern exchange `i` to the other, leave the
one job as it is among the others. -/
theorem after (h : Mirrors i f g) :
    Mirrors i (f.after hs) (g.after (own i f.jobs.length hs)) := by
  induction hs generalizing f g with
  | nil => exact h
  | cons happening hs ih =>
    rw [after_cons]
    cases happening with
    | start payload clock attempts =>
      have hlength : (f.start payload clock attempts).jobs.length = f.jobs.length + 1 :=
        List.length_append
      rw [own, ← hlength]
      by_cases hi : f.jobs.length = i
      · rw [if_pos hi, after_cons]
        refine ih ⟨h.config, ?_⟩
        have hg : g.jobs = [] := by rw [h.jobs, List.getElem?_eq_none (Nat.le_of_eq hi)]; rfl
        simp [happen, start, hg, ← hi]
      · rw [if_neg hi]
        refine ih (h.of_getElem? rfl ?_)
        rcases Nat.lt_or_gt_of_ne hi with hlt | hlt
        · rw [List.getElem?_eq_none (Nat.le_of_lt hlt), List.getElem?_eq_none]
          exact Nat.le_trans (Nat.le_of_eq hlength) hlt
        · exact List.getElem?_append_left hlt
    | step j =>
      have hlength : (f.step j).1.jobs.length = f.jobs.length := by
        rw [jobs_step, List.length_modify]
      rw [own, ← hlength]
      by_cases hj : j = i
      · subst hj
        rw [if_pos rfl, after_cons]
        exact ih (h.of_modify (config_happen f (.step j)) (config_happen g (.step 0))
          (jobs_step f j) (h.config ▸ jobs_step g 0))
      · rw [if_neg hj]
        exact ih (h.of_modify_ne hj (config_happen f (.step j)) (jobs_step f j))
    | expire j =>
      have hlength : (f.expire j).1.jobs.length = f.jobs.length := by
        rw [jobs_expire, List.length_modify]
      rw [own, ← hlength]
      by_cases hj : j = i
      · subst hj
        rw [if_pos rfl, after_cons]
        exact ih (h.of_modify (config_happen f (.expire j)) (config_happen g (.expire 0))
          (jobs_expire f j) (jobs_expire g 0))
      · rw [if_neg hj]
        exact ih (h.of_modify_ne hj (config_happen f (.expire j)) (jobs_expire f j))

end Mirrors

/-- What a job has come to among others is what it has come to alone. -/
theorem jobs_after_own (c : Config) (hs : List Happening) (i : Nat) :
    ((new c).after hs).jobs[i]? = ((new c).after (own i 0 hs)).jobs[0]? := by
  have hstart : Mirrors i (new c) (new c) := ⟨rfl, rfl⟩
  have h : Mirrors i ((new c).after hs) ((new c).after (own i 0 hs)) := hstart.after
  rw [h.jobs]
  cases ((new c).after hs).jobs[i]? <;> rfl

example (a b : Bytes) :
    own 1 0 [.start a 0 [], .step 0, .start b 0 [], .step 1, .step 0, .expire 1] =
      [.start b 0 [], .step 0, .expire 0] := rfl

/-! ## At the end -/

/-- An exchange that has ended is where its run by itself ends. -/
theorem exchange_eq_run_of_job {x : Exchange} {job : Job} (hx : (started hs)[i]? = some x)
    (hjob : ((new c).after hs).jobs[i]? = some job)
    (hended : job.exchange.stage.result?.isSome) : job.exchange = (x.run c).1 := by
  obtain ⟨result, hresult⟩ := Option.isSome_iff_exists.1 hended
  exact exchange_eq_run hx (getElem?_exchanges hjob) hresult

/-- What the caller of an exchange that has ended is told. -/
theorem answer?_of_run {x : Exchange} {job : Job} (hjob : f.jobs[i]? = some job)
    (hrun : job.exchange = (x.run c).1) : f.answer? i =
      some (if job.expired then .error f.config.expiry
        else (Config.report (x.stage.outcome c x.payload)).1) := by
  have hresult : job.exchange.stage.result? = some (x.stage.outcome c x.payload) :=
    hrun ▸ Stage.result?_run c x.payload x.stage
  rw [answer?, hjob, Option.bind_some, hresult]
  split <;> rfl

/-- What isolation is when `hs` happen to a forwarder. -/
structure Isolated (c : Config) (hs : List Happening) : Prop where
  /-- At every moment a job is what it is on a forwarder of its own. -/
  alone : ∀ i, ((new c).after hs).jobs[i]? = ((new c).after (own i 0 hs)).jobs[0]?
  /-- At its end an exchange, with its outcome and all that its connection was sent, is where its
  run by itself ends. -/
  ended : ∀ (i : Nat) (x : Exchange) (job : Job), (started hs)[i]? = some x →
    ((new c).after hs).jobs[i]? = some job →
    job.exchange.stage.result?.isSome → job.exchange = (x.run c).1
  /-- Its caller is told the outcome of that run, unless it was told that it took too long. -/
  answered : ∀ (i : Nat) (x : Exchange) (job : Job), (started hs)[i]? = some x →
    ((new c).after hs).jobs[i]? = some job →
    job.exchange.stage.result?.isSome → job.expired = false →
      ((new c).after hs).answer? i = some (Config.report (x.stage.outcome c x.payload)).1
  /-- In another order, or among others, it ends in the same way with the same answer. -/
  order : ∀ (hs' : List Happening) (i j : Nat) (x : Exchange) (job job' : Job),
    (started hs)[i]? = some x → (started hs')[j]? = some x →
    ((new c).after hs).jobs[i]? = some job → ((new c).after hs').jobs[j]? = some job' →
    job.exchange.stage.result?.isSome → job'.exchange.stage.result?.isSome →
      job.exchange = job'.exchange ∧ (job.expired = job'.expired →
        ((new c).after hs).answer? i = ((new c).after hs').answer? j)

/-- Exchanges are isolated, whatever happens in whatever order. -/
theorem isolated_after (c : Config) (hs : List Happening) : Isolated c hs := by
  refine ⟨jobs_after_own c hs, fun i x job => exchange_eq_run_of_job, ?_, ?_⟩
  · intro i x job hx hjob hended hexpired
    rw [answer?_of_run hjob (exchange_eq_run_of_job hx hjob hended), hexpired]
    rfl
  · intro hs' i j x job job' hx hx' hjob hjob' hended hended'
    have hrun := exchange_eq_run_of_job hx hjob hended
    have hrun' := exchange_eq_run_of_job hx' hjob' hended'
    refine ⟨hrun.trans hrun'.symm, fun hexpired => ?_⟩
    rw [answer?_of_run hjob hrun, answer?_of_run hjob' hrun', config_after, config_after, hexpired]

end Forwarder

end FramedRelay
