import WeightPolyhedron.Search
import WeightPolyhedron.Skeleton.Request
import WeightPolyhedron.Proofs.Outcome

/-!
The calls of an oracle. An oracle that keeps a list of its calls makes the same search as without
it, and so what is shown with the list at hand holds of every search.
-/

namespace WeightPolyhedron

variable {σ τ ε α β γ : Type}

/-- The second action does what the first one does, and carries further state along. -/
def Carries (action : EStateM ε σ β) (action' : EStateM ε (σ × τ) β) : Prop :=
  ∀ s t, match action s with
    | .ok b s' => ∃ t', action' (s, t) = .ok b (s', t')
    | .error e s' => ∃ t', action' (s, t) = .error e (s', t')

namespace Carries

theorem pure (b : β) : Carries (Pure.pure b : EStateM ε σ β) (Pure.pure b : EStateM ε (σ × τ) β) :=
  fun _ t => ⟨t, rfl⟩

theorem throw (e : ε) :
    Carries (MonadExcept.throw e : EStateM ε σ β) (MonadExcept.throw e : EStateM ε (σ × τ) β) :=
  fun _ t => ⟨t, rfl⟩

theorem bind {action : EStateM ε σ β} {action' : EStateM ε (σ × τ) β} {next : β → EStateM ε σ γ}
    {next' : β → EStateM ε (σ × τ) γ} (h : Carries action action')
    (hnext : ∀ b, Carries (next b) (next' b)) : Carries (action >>= next) (action' >>= next') := by
  intro s t
  have hs := h s t
  simp only [Bind.bind, EStateM.bind]
  cases haction : action s with
  | ok b s' =>
    simp only [haction] at hs
    obtain ⟨t', ht'⟩ := hs
    simp only [ht']
    exact hnext b s' t'
  | error e s' =>
    simp only [haction] at hs
    obtain ⟨t', ht'⟩ := hs
    simp only [ht']
    exact ⟨t', rfl⟩

end Carries

namespace Answer

def ray? : Answer α → Option (List α)
  | point _ => none
  | ray direction => some direction

def request : Answer α → Request α
  | point outcome => .point outcome
  | ray direction => .ray direction

end Answer

namespace Search

abbrev Call (α : Type) := List α × Answer α

def requests (calls : List (Call α)) : List (Request α) :=
  calls.flatMap fun call => [.nextWeight, call.2.request]

theorem requests_concat (calls : List (Call α)) (call : Call α) :
    requests (calls ++ [call]) = requests calls ++ [.nextWeight] ++ [call.2.request] := by
  simp [requests]

def recorded (oracle : Oracle σ ε α) : Oracle (σ × List (Call α)) ε α := fun weight state =>
  match oracle weight state.1 with
  | .ok answer s => .ok answer (s, state.2 ++ [(weight, answer)])
  | .error cause s => .error cause (s, state.2)

variable {oracle : Oracle σ ε α}

theorem ask_ends (oracle : Oracle σ ε α) (w : List α) (st : σ) : Ends (ask oracle w) st
    (fun answer st' => oracle w st = .ok answer st') (fun _ _ => True) := by
  cases h : oracle w st <;> simp [Ends, ask, h]

theorem ask_recorded_ends (oracle : Oracle σ ε α) (w : List α) (state : σ × List (Call α)) :
    Ends (ask (recorded oracle) w) state
      (fun answer state' => state'.2 = state.2 ++ [(w, answer)]) (fun _ _ => True) := by
  cases h : oracle w state.1 <;> simp [Ends, ask, recorded, h]

/-- What a skeleton does is done without the oracle. -/
theorem act_ends {s : Skeleton α} {action : Skeleton.Action α β} {done : β → Skeleton α → Prop}
    {failed : Skeleton.Error α → Skeleton α → Prop} {refused : Error ε α → σ → Prop}
    (h : Ends action s done failed) (st : σ)
    (hfailed : ∀ cause s', failed cause s' → refused (.skeleton cause) st) :
    Ends (act (ε := ε) s action) st
      (fun result st' => st' = st ∧ done result.1 result.2) refused := by
  unfold act
  cases hs : action s with
  | ok b s' => exact .pure ⟨rfl, h.of_ok hs⟩
  | error e s' => exact .throw (hfailed e s' (h.of_error hs))

theorem carries_ask (w : List α) : Carries (ask oracle w) (ask (recorded oracle) w) := by
  intro st calls
  cases h : oracle w st <;> simp [ask, recorded, h]

theorem carries_act (s : Skeleton α) (action : Skeleton.Action α β) :
    Carries (act s action : EStateM (Error ε α) σ _)
      (act s action : EStateM (Error ε α) (σ × List (Call α)) _) := by
  unfold act
  cases action s with
  | ok b s' => exact .pure (b, s')
  | error cause _ => exact .throw (Error.skeleton cause)

variable [Scalar α]

theorem carries_probe (p : Nat) (rays : List (List α)) (indices : List Nat) :
    Carries (probe oracle p rays indices) (probe (recorded oracle) p rays indices) := by
  induction indices generalizing rays with
  | nil => exact .pure _
  | cons i indices ih =>
    refine .bind (carries_ask _) fun answer => ?_
    cases answer with
    | point outcome => exact .pure _
    | ray direction => exact ih _

theorem carries_step (search : Search α) :
    Carries (step oracle search) (step (recorded oracle) search) := by
  refine .bind (carries_act _ _) fun ⟨w, s⟩ => .bind (carries_ask w) fun answer => ?_
  cases answer with
  | point outcome => exact .bind (carries_act _ _) fun _ => .pure _
  | ray direction => exact .bind (carries_act _ _) fun _ => .pure _

theorem carries_explore (budget : Nat) (search : Search α) :
    Carries (explore oracle budget search) (explore (recorded oracle) budget search) := by
  induction budget generalizing search with
  | zero => exact .pure _
  | succ budget ih =>
    unfold explore
    split_ifs
    · exact .bind (carries_step search) ih
    · exact .pure _

theorem carries_run (oracle : Oracle σ ε α) (p : Nat) (settings : Settings α) (budget : Nat) :
    Carries (run oracle p settings budget) (run (recorded oracle) p settings budget) := by
  unfold run
  split_ifs
  · exact fun _ calls => ⟨calls, rfl⟩
  refine .bind (carries_probe p [] (List.range p)) fun ⟨rays, first⟩ => ?_
  cases first with
  | none => exact .throw _
  | some found =>
    obtain ⟨index, point⟩ := found
    dsimp only
    cases Skeleton.build p point (some index) rays settings with
    | error cause => exact .throw _
    | ok s => exact carries_explore budget _

/-- A search is the same search with its calls on record. -/
theorem exists_recorded {p : Nat} {settings : Settings α} {budget : Nat} {st st' : σ}
    {search : Search α} (h : run oracle p settings budget st = .ok search st') :
    ∃ calls, run (recorded oracle) p settings budget (st, []) = .ok search (st', calls) := by
  have hcarries := carries_run oracle p settings budget st []
  simpa only [h] using hcarries

end Search

end WeightPolyhedron
