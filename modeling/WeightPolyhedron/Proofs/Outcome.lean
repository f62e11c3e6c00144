import Mathlib.Tactic.Common

/-!
Conditions on the outcome of an action that may fail: one for its result and the state that it
leaves, and one for its failure and the state that the failure found. Two actions that give the same
results and failures are compared by relations between their states.
-/

namespace WeightPolyhedron

variable {ε σ β γ : Type}

/-- A check of a result that passes shows that there is a result. -/
theorem exists_ok_of_any {outcome : Except ε β} {check : β → Bool}
    (h : outcome.toOption.any check = true) : ∃ b, outcome = .ok b ∧ check b = true := by
  cases outcome with
  | error e => cases h
  | ok b => exact ⟨b, rfl, h⟩

/-- An action started in a state ends well in the first condition or fails in the second one. -/
def Ends (action : EStateM ε σ β) (s : σ) (done : β → σ → Prop) (failed : ε → σ → Prop) : Prop :=
  match action s with
  | .ok b s => done b s
  | .error e s => failed e s

namespace Ends

variable {action : EStateM ε σ β} {next : β → EStateM ε σ γ} {s s' : σ} {b : β} {c : γ} {e : ε}
  {done done' : β → σ → Prop} {failed failed' : ε → σ → Prop} {finished : γ → σ → Prop}

theorem intro (hdone : ∀ b s', action s = .ok b s' → done b s')
    (hfailed : ∀ e s', action s = .error e s' → failed e s') : Ends action s done failed := by
  cases haction : action s with
  | ok b s' => simpa [Ends, haction] using hdone b s' haction
  | error e s' => simpa [Ends, haction] using hfailed e s' haction

theorem of_ok (h : Ends action s done failed) (hok : action s = .ok b s') : done b s' := by
  simpa [Ends, hok] using h

theorem of_error (h : Ends action s done failed) (herror : action s = .error e s') :
    failed e s' := by
  simpa [Ends, herror] using h

/-- An action that cannot fail has a result. -/
theorem exists_ok (h : Ends action s done failed) (hfailed : ∀ e s', ¬ failed e s') :
    ∃ b s', action s = .ok b s' ∧ done b s' := by
  cases haction : action s with
  | ok b s' => exact ⟨b, s', rfl, h.of_ok haction⟩
  | error e s' => exact absurd (h.of_error haction) (hfailed e s')

theorem mono (h : Ends action s done failed) (hdone : ∀ b s, done b s → done' b s)
    (hfailed : ∀ e s, failed e s → failed' e s) : Ends action s done' failed' := by
  unfold Ends at h ⊢
  split at h
  · exact hdone _ _ h
  · exact hfailed _ _ h

theorem and (h : Ends action s done failed) (h' : Ends action s done' failed') :
    Ends action s (fun b s => done b s ∧ done' b s) fun e s => failed e s ∧ failed' e s := by
  unfold Ends at h h' ⊢
  split at h <;> simp_all

theorem pure (h : done b s) : Ends (Pure.pure b : EStateM ε σ β) s done failed := h

theorem throw (h : failed e s) : Ends (MonadExcept.throw e : EStateM ε σ β) s done failed := h

theorem get {done : σ → σ → Prop} (h : done s s) :
    Ends (MonadState.get : EStateM ε σ σ) s done failed := h

theorem modify {done : PUnit → σ → Prop} {f : σ → σ} (h : done ⟨⟩ (f s)) :
    Ends (modify f : EStateM ε σ PUnit) s done failed := h

theorem modifyGet {f : σ → β × σ} (h : done (f s).1 (f s).2) :
    Ends (modifyGet f : EStateM ε σ β) s done failed := h

theorem bind (h : Ends action s (fun b s => Ends (next b) s finished failed) failed) :
    Ends (action >>= next) s finished failed := by
  simp only [Ends, Bind.bind, EStateM.bind] at h ⊢
  cases hs : action s with
  | ok b s' => simpa [hs] using h
  | error e s' => simpa [hs] using h

theorem andThen (h : Ends action s done failed)
    (hnext : ∀ b s, done b s → Ends (next b) s finished failed) :
    Ends (action >>= next) s finished failed :=
  bind (h.mono hnext fun _ _ => id)

theorem map {f : β → γ} (h : Ends action s (fun b s => finished (f b) s) failed) :
    Ends (f <$> action) s finished failed := by
  simp only [Ends, Functor.map, EStateM.map] at h ⊢
  cases hs : action s with
  | ok b s' => simpa [hs] using h
  | error e s' => simpa [hs] using h

/-- A list is worked off from the left. What holds of the part that is done and its results is kept
by each further element. -/
theorem mapM {f : β → EStateM ε σ γ} {l : List β} (done : List β → List γ → σ → Prop)
    (hstep : ∀ front b back results s, l = front ++ b :: back → done front results s →
      Ends (f b) s (fun c s => done (front ++ [b]) (results ++ [c]) s) failed)
    (hstart : done [] [] s) : Ends (l.mapM f) s (done l) failed := by
  suffices h : ∀ back front results s, l = front ++ back → done front results s →
      Ends (back.mapM f) s (fun cs s => done l (results ++ cs) s) failed from
    (h l [] [] s rfl hstart).mono (fun _ _ => id) fun _ _ => id
  intro back
  induction back with
  | nil =>
    intro front results s hl hdone
    rw [List.mapM_nil]
    apply pure
    simpa [hl] using hdone
  | cons b back ih =>
    intro front results s hl hdone
    rw [List.mapM_cons]
    apply (hstep front b back results s hl hdone).andThen
    intro c s hc
    apply (ih (front ++ [b]) (results ++ [c]) s (by simp [hl]) hc).andThen
    intro cs s hcs
    apply pure
    simpa using hcs

end Ends

/-- Two actions started in two states end with the same result or failure, and in states related by
the first relation or by the second one. -/
def EndAlike (action action' : EStateM ε σ β) (s s' : σ) (done : β → σ → σ → Prop)
    (failed : σ → σ → Prop) : Prop :=
  match action s, action' s' with
  | .ok b t, .ok b' t' => b = b' ∧ done b t t'
  | .error e t, .error e' t' => e = e' ∧ failed t t'
  | _, _ => False

namespace EndAlike

variable {action action' : EStateM ε σ β} {next next' : β → EStateM ε σ γ} {s s' t : σ} {b : β}
  {e : ε} {done done' : β → σ → σ → Prop} {failed : σ → σ → Prop} {finished : γ → σ → σ → Prop}

theorem of_ok (h : EndAlike action action' s s' done failed) (hok : action s = .ok b t) :
    ∃ t', action' s' = .ok b t' ∧ done b t t' := by
  unfold EndAlike at h
  rw [hok] at h
  split at h
  · next b' t' heq hok' =>
    cases heq
    obtain ⟨rfl, ht⟩ := h
    exact ⟨t', hok', ht⟩
  · next heq _ => cases heq
  · exact h.elim

theorem of_error (h : EndAlike action action' s s' done failed) (herror : action s = .error e t) :
    ∃ t', action' s' = .error e t' ∧ failed t t' := by
  unfold EndAlike at h
  rw [herror] at h
  split at h
  · next heq _ => cases heq
  · next e' t' heq herror' =>
    cases heq
    obtain ⟨rfl, ht⟩ := h
    exact ⟨t', herror', ht⟩
  · exact h.elim

theorem pure (h : done b s s') :
    EndAlike (Pure.pure b) (Pure.pure b : EStateM ε σ β) s s' done failed :=
  ⟨rfl, h⟩

theorem throw (h : failed s s') :
    EndAlike (MonadExcept.throw e) (MonadExcept.throw e : EStateM ε σ β) s s' done failed :=
  ⟨rfl, h⟩

theorem get {next next' : σ → EStateM ε σ γ}
    (h : EndAlike (next s) (next' s') s s' finished failed) :
    EndAlike (MonadState.get >>= next) (MonadState.get >>= next') s s' finished failed :=
  h

theorem modify {done : PUnit → σ → σ → Prop} {f f' : σ → σ} (h : done ⟨⟩ (f s) (f' s')) :
    EndAlike (modify f) (modify f' : EStateM ε σ PUnit) s s' done failed :=
  ⟨rfl, h⟩

theorem modifyGet {f f' : σ → β × σ} (heq : (f s).1 = (f' s').1)
    (h : done (f s).1 (f s).2 (f' s').2) :
    EndAlike (modifyGet f) (modifyGet f' : EStateM ε σ β) s s' done failed :=
  ⟨heq, h⟩

theorem bind (h : EndAlike action action' s s'
      (fun b t t' => EndAlike (next b) (next' b) t t' finished failed) failed) :
    EndAlike (action >>= next) (action' >>= next') s s' finished failed := by
  unfold EndAlike
  simp only [Bind.bind, EStateM.bind]
  cases haction : action s with
  | ok b t =>
    obtain ⟨t', haction', ht⟩ := h.of_ok haction
    simp only [haction']
    exact ht
  | error e t =>
    obtain ⟨t', haction', ht⟩ := h.of_error haction
    simp only [haction']
    exact ⟨trivial, ht⟩

theorem mono (h : EndAlike action action' s s' done failed)
    (hdone : ∀ b t t', done b t t' → done' b t t') : EndAlike action action' s s' done' failed := by
  unfold EndAlike
  cases haction : action s with
  | ok b t =>
    obtain ⟨t', haction', ht⟩ := h.of_ok haction
    simp only [haction']
    exact ⟨trivial, hdone b t t' ht⟩
  | error e t =>
    obtain ⟨t', haction', ht⟩ := h.of_error haction
    simp only [haction']
    exact ⟨trivial, ht⟩

theorem andThen (h : EndAlike action action' s s' done failed)
    (hnext : ∀ b t t', done b t t' → EndAlike (next b) (next' b) t t' finished failed) :
    EndAlike (action >>= next) (action' >>= next') s s' finished failed :=
  bind (h.mono hnext)

theorem map {f : β → γ} (h : EndAlike action action' s s' (fun b => finished (f b)) failed) :
    EndAlike (f <$> action) (f <$> action') s s' finished failed := by
  rw [map_eq_pure_bind, map_eq_pure_bind]
  exact h.andThen fun _ _ _ ht => .pure ht

/-- What each element of a list keeps is kept by all of them. -/
theorem mapM {R : σ → σ → Prop} {f f' : β → EStateM ε σ γ}
    (h : ∀ b s s', R s s' → EndAlike (f b) (f' b) s s' (fun _ => R) R) (l : List β) (hs : R s s') :
    EndAlike (l.mapM f) (l.mapM f') s s' (fun _ => R) R := by
  induction l generalizing s s' with
  | nil => exact .pure hs
  | cons b l ih =>
    rw [List.mapM_cons, List.mapM_cons]
    refine (h b s s' hs).andThen fun c t t' ht => (ih ht).andThen fun cs u u' hu => ?_
    exact .pure hu

end EndAlike

end WeightPolyhedron
