import WeightPolyhedron.Proofs.Skeleton.Fresh
import WeightPolyhedron.Proofs.Skeleton.Sound
import WeightPolyhedron.Proofs.Stored

/-!
The meshes that a run goes through, report by report, and the vertices that it leaves behind. Where
removal is deferred, a run ends with the vertices of its nodes and with all that were ever detached
from one, as they were then.
-/

namespace WeightPolyhedron

open Relation (ReflGen ReflTransGen)

namespace Mesh

variable {α : Type} {m m' m'' : Mesh α} {meshes meshes' : List (Mesh α)} {key : VertexKey}
  {v : Vertex α}

inductive ShedsAlong : Mesh α → List (Mesh α) → Mesh α → Prop
  | nil (m : Mesh α) : ShedsAlong m [] m
  | cons {m m' m'' : Mesh α} {meshes : List (Mesh α)} (first : m.Sheds m')
    (rest : ShedsAlong m' meshes m'') : ShedsAlong m (m' :: meshes) m''

namespace ShedsAlong

theorem single (h : m.Sheds m') : ShedsAlong m [m'] m' := .cons h (.nil m')

theorem append (h : ShedsAlong m meshes m') (h' : ShedsAlong m' meshes' m'') :
    ShedsAlong m (meshes ++ meshes') m'' := by
  induction h with
  | nil => exact h'
  | cons hfirst _ ih => exact .cons hfirst (ih h')

theorem getLast?_eq (h : ShedsAlong m meshes m') : (m :: meshes).getLast? = some m' := by
  induction h with
  | nil => rfl
  | cons _ _ ih => rw [List.getLast?_cons_cons, ih]

/-- The number of stored vertices never decreases. -/
theorem pairwise_size (h : ShedsAlong m meshes m') :
    ((m :: meshes).map (·.vertices.size)).Pairwise (· ≤ ·) := by
  rw [← List.isChain_iff_pairwise]
  induction h with
  | nil => exact .singleton _
  | cons hfirst _ ih => exact .cons_cons (Arena.size_le hfirst.stored) ih

/-- What is loose at the end was loose from the start or was detached on the way. -/
theorem loose_iff (h : ShedsAlong m meshes m') : m'.Loose key v ↔
    m.Loose key v ∨ ∃ a b, [a, b] <:+: m :: meshes ∧ a.Departs b key v := by
  induction h with
  | nil m =>
    refine (or_iff_left ?_).symm
    rintro ⟨a, b, hab, -⟩
    simpa using hab.length_le
  | @cons m m₁ m' meshes hfirst _ ih =>
    -- two neighbours in the run are its first two meshes, or neighbours in the rest of it
    have hpairs (a b : Mesh α) : [a, b] <:+: m :: m₁ :: meshes ↔
        (a = m ∧ b = m₁) ∨ [a, b] <:+: m₁ :: meshes := by
      rw [List.infix_cons_iff]
      simp only [List.cons_prefix_cons, List.nil_prefix, and_true]
    rw [ih, hfirst.loose_iff, or_assoc]
    refine or_congr_right ⟨fun hs => ?_, ?_⟩
    · rcases hs with hs | ⟨a, b, hab, hs⟩
      exacts [⟨m, m₁, (hpairs _ _).2 (.inl ⟨rfl, rfl⟩), hs⟩, ⟨a, b, (hpairs _ _).2 (.inr hab), hs⟩]
    · rintro ⟨a, b, hab, hs⟩
      rcases (hpairs a b).1 hab with ⟨rfl, rfl⟩ | hab
      exacts [.inl hs, .inr ⟨a, b, hab, hs⟩]

end ShedsAlong

end Mesh

namespace Skeleton

variable {α : Type} [Scalar α] {s s' : Skeleton α} {f : Facet α} {seed : NodeKey}
  {request : Request α} {objectives : Nat} {point : List α} {originating : Option Nat}
  {rays : List (List α)} {settings : Settings α}

/-- The meshes after each ray of a batch, up to the first one that fails. -/
def turnsOfRays (s : Skeleton α) : List (List α) → List (Mesh α)
  | [] => []
  | ray :: rays =>
    match s.respond (.rayAnywhere ray) with
    | (.ok _, s') => s'.mesh :: turnsOfRays s' rays
    | (.error _, s') => [s'.mesh]

def turnsOf (s : Skeleton α) : Request α → List (Mesh α)
  | .rays directions => s.turnsOfRays directions
  | request => [(s.respond request).2.mesh]

def turns (s : Skeleton α) : List (Request α) → List (Mesh α)
  | [] => []
  | request :: requests => s.turnsOf request ++ turns (s.respond request).2 requests

theorem turnsOf_eq (h : ∀ directions, request ≠ .rays directions) :
    s.turnsOf request = [(s.respond request).2.mesh] := by
  cases request with
  | rays directions => exact absurd rfl (h directions)
  | nextWeight | point | pointAnywhere | ray | rayAnywhere => rfl

structure Defers (s : Skeleton α) : Prop where
  sound : s.IsSound
  filed : s.mesh.IsFiled .deferred
  retention_eq : s.settings.retention = .deferred

namespace Defers

theorem sheds_cut (h : s.Defers) (f : Facet α) (seed : NodeKey) : Ends (cut f seed) s
    (fun _ s' => s.mesh.Sheds s'.mesh) fun _ s' => s.mesh.Sheds s'.mesh := by
  unfold Ends cut
  cases hpush : s.log.push f with
  | error cause => exact .refl h.filed
  | ok stored =>
    obtain ⟨id, log⟩ := stored
    obtain rfl := FacetLog.eq_size_of_push hpush
    have hends := Mesh.sheds_cut log f seed h.sound.mesh h.filed
    rw [h.retention_eq]
    cases hcut : Mesh.cut log s.log.size f seed .deferred s.mesh with
    | ok stats m => simpa only [hcut, mesh_audited] using hends.of_ok hcut
    | error cause m => simpa only [hcut] using hends.of_error hcut

theorem sheds_step (h : s.Defers) (hstep : Step s s') : s.mesh.Sheds s'.mesh := by
  cases hstep with
  | take => exact Mesh.sheds_takeUntested h.filed
  | note => exact .refl h.filed
  | cut _ _ done => exact (h.sheds_cut ..).of_ok done
  | failedCut _ _ failed => exact (h.sheds_cut ..).of_error failed

theorem step (h : s.Defers) (hstep : ReflGen Step s s') : s'.Defers ∧ s.mesh.Sheds s'.mesh := by
  cases hstep with
  | refl => exact ⟨h, .refl h.filed⟩
  | single hstep =>
    have hsheds := h.sheds_step hstep
    obtain ⟨hsound, -, hsettings⟩ := h.sound.step hstep
    exact ⟨⟨hsound, hsheds.filed, hsettings ▸ h.retention_eq⟩, hsheds⟩

theorem respond_once (h : s.Defers) (request : Request α)
    (hsingle : ∀ directions, request ≠ .rays directions) :
    (s.respond request).2.Defers ∧ s.mesh.Sheds (s.respond request).2.mesh :=
  h.step (of_perform (once_perform hsingle s))

/-- The rays of a batch are one report each. -/
theorem reportRaysFrom_ends (h : s.Defers) (rays : List (List α)) (total : CutStats)
    (applied : Nat) :
    Ends (reportRaysFrom total applied rays) s
      (fun _ s' => s'.Defers ∧ Mesh.ShedsAlong s.mesh (s.turnsOfRays rays) s'.mesh)
      fun _ s' => s'.Defers ∧ Mesh.ShedsAlong s.mesh (s.turnsOfRays rays) s'.mesh := by
  induction rays generalizing s total applied with
  | nil => exact .bind (.modify (.pure ⟨(h.step (.single (.note s total))).1, .nil s.mesh⟩))
  | cons ray rays ih =>
    have hfirst := h.respond_once (.rayAnywhere ray) nofun
    refine .bind (.intro (fun b s' hray => ?_) fun e s' hray => ?_)
    · have hrespond := respond_rayAnywhere_of_ok hray
      simp only [hrespond] at hfirst
      simp only [turnsOfRays, hrespond]
      have hrest := ih hfirst.1 (total + s'.stats) (if b then applied + 1 else applied)
      exact .bind (.get (hrest.mono (fun _ _ hs => ⟨hs.1, .cons hfirst.2 hs.2⟩)
        fun _ _ hs => ⟨hs.1, .cons hfirst.2 hs.2⟩))
    -- the rays after the first one that fails are not tried
    · have hrespond := respond_rayAnywhere_of_error hray
      simp only [hrespond] at hfirst
      simp only [turnsOfRays, hrespond]
      exact ⟨hfirst.1, .single hfirst.2⟩

theorem respond (h : s.Defers) (request : Request α) : (s.respond request).2.Defers ∧
    Mesh.ShedsAlong s.mesh (s.turnsOf request) (s.respond request).2.mesh := by
  by_cases hbatch : ∃ directions, request = .rays directions
  · obtain ⟨directions, rfl⟩ := hbatch
    exact of_perform
      (P := fun s' => s'.Defers ∧ Mesh.ShedsAlong s.mesh (s.turnsOfRays directions) s'.mesh)
      (.map (h.reportRaysFrom_ends directions .zero 0))
  · have hsingle (directions) (heq : request = .rays directions) : False := hbatch ⟨directions, heq⟩
    obtain ⟨hdefers, hsheds⟩ := h.respond_once request hsingle
    rw [turnsOf_eq hsingle]
    exact ⟨hdefers, .single hsheds⟩

theorem after (h : s.Defers) (requests : List (Request α)) : (s.after requests).Defers ∧
    Mesh.ShedsAlong s.mesh (s.turns requests) (s.after requests).mesh := by
  induction requests generalizing s with
  | nil => exact ⟨h, .nil s.mesh⟩
  | cons request requests ih =>
    obtain ⟨hdefers, hfirst⟩ := h.respond request
    obtain ⟨hafter, hrest⟩ := ih hdefers
    exact ⟨hafter, hfirst.append hrest⟩

end Defers

/-- At the start no vertex is loose. -/
theorem defers_of_start (h : start objectives point originating settings = .ok s)
    (hsettings : settings.retention = .deferred) :
    s.Defers ∧ ∀ key v, ¬ s.mesh.Loose key v := by
  have hsound := isSound_of_start h
  obtain ⟨-, -, f, -, rfl⟩ := start_eq_ok h
  have hchanges := changes_cornerMesh point objectives originating
  have hempty : (Mesh.empty : Mesh α).IsFiled .deferred := Mesh.isFiled_empty
  refine ⟨⟨hsound, hempty.changes hchanges, hsettings⟩, fun key v hv => ?_⟩
  obtain ⟨hv, -⟩ := (Mesh.loose_of_changes hchanges hempty).2.1 hv
  simp [Mesh.empty] at hv

end Skeleton

end WeightPolyhedron
