import Mathlib.Data.List.Flatten
import Mathlib.Data.List.Indexes
import Mathlib.Data.List.Infix
import Mathlib.Logic.Function.Iterate

/-!
# Bursts of data beats under queued commands

A queue of commands and a queue of data beats are served together: the beat at
the head belongs to the command at the head, and the beat marked last retires
that command.  `serve` lists what such a server puts out for the two queues,
and is evaluated here on streams that are the concatenation of whole bursts.
-/

namespace Bursts

variable {C D O K : Type*}

/-- A command with its beats, of which exactly the final one is marked last. -/
structure Burst (C : Type*) {D : Type*} (last : D → Bool) where
  cmd : C
  body : List D
  final : D
  body_not_last : ∀ d ∈ body, last d = false
  final_last : last final = true

namespace Burst

variable {last : D → Bool} (b : Burst C last)

def beats : List D := b.body ++ [b.final]

theorem length_beats : b.beats.length = b.body.length + 1 := by
  simp [beats]

end Burst

section Serve

variable (last : D → Bool) (first : K) (succ : K → K)
  (out : C → K → D → List O)

/-- What a server at beat counter `k` puts out for the queues it holds. -/
def serve : K → List C → List D → List O
  | _, _, [] => []
  | _, [], _ :: _ => []
  | k, c :: cs, d :: ds =>
      out c k d ++
        if last d then serve first cs ds else serve (succ k) (c :: cs) ds

/-- What is put out for consecutive beats of one command. -/
def outputs (c : C) : K → List D → List O
  | _, [] => []
  | k, d :: ds => out c k d ++ outputs c (succ k) ds

@[simp] theorem serve_nil_right (k : K) (cs : List C) :
    serve last first succ out k cs [] = [] := by
  cases cs <;> rfl

@[simp] theorem serve_nil_left (k : K) (ds : List D) :
    serve last first succ out k [] ds = [] := by
  cases ds <;> rfl

variable {last}

theorem serve_cons_last {d : D} (hd : last d = true)
    (k : K) (c : C) (cs : List C) (ds : List D) :
    serve last first succ out k (c :: cs) (d :: ds) =
      out c k d ++ serve last first succ out first cs ds := by
  simp [serve, hd]

theorem serve_cons_not_last {d : D} (hd : last d = false)
    (k : K) (c : C) (cs : List C) (ds : List D) :
    serve last first succ out k (c :: cs) (d :: ds) =
      out c k d ++ serve last first succ out (succ k) (c :: cs) ds := by
  simp [serve, hd]

variable (last) in
theorem serve_isPrefix (k : K) (cs xs : List C) (ds ys : List D) :
    serve last first succ out k cs ds <+:
      serve last first succ out k (cs ++ xs) (ds ++ ys) := by
  induction ds generalizing k cs with
  | nil => simp
  | cons d ds ih =>
      cases cs with
      | nil => simp
      | cons c cs =>
          simp only [List.cons_append]
          cases hd : last d with
          | true =>
              rw [serve_cons_last _ _ _ hd, serve_cons_last _ _ _ hd]
              exact (List.prefix_append_right_inj _).mpr (ih first cs)
          | false =>
              rw [serve_cons_not_last _ _ _ hd, serve_cons_not_last _ _ _ hd]
              exact (List.prefix_append_right_inj _).mpr (ih (succ k) (c :: cs))

theorem serve_body {body : List D} (hbody : ∀ d ∈ body, last d = false)
    (k : K) (c : C) (cs : List C) (ds : List D) :
    serve last first succ out k (c :: cs) (body ++ ds) =
      outputs succ out c k body ++
        serve last first succ out (succ^[body.length] k) (c :: cs) ds := by
  induction body generalizing k with
  | nil => simp [outputs]
  | cons d body ih =>
      rw [List.forall_mem_cons] at hbody
      rw [List.cons_append, serve_cons_not_last _ _ _ hbody.1, ih hbody.2]
      simp [outputs]

theorem outputs_append (c : C) (k : K) (ds es : List D) :
    outputs succ out c k (ds ++ es) =
      outputs succ out c k ds ++
        outputs succ out c (succ^[ds.length] k) es := by
  induction ds generalizing k with
  | nil => simp [outputs]
  | cons d ds ih => simp [outputs, ih]

/-- A whole burst at the head of the queues is served first. -/
theorem serve_burst (b : Burst C last) (cs : List C) (ds : List D) :
    serve last first succ out first (b.cmd :: cs) (b.beats ++ ds) =
      outputs succ out b.cmd first b.beats ++
        serve last first succ out first cs ds := by
  rw [Burst.beats, List.append_assoc, serve_body _ _ _ b.body_not_last,
    outputs_append, List.singleton_append, serve_cons_last _ _ _ b.final_last]
  simp [outputs]

variable (last) in
theorem serve_bursts (bursts : List (Burst C last)) :
    serve last first succ out first (bursts.map Burst.cmd)
        (bursts.flatMap Burst.beats) =
      bursts.flatMap fun b => outputs succ out b.cmd first b.beats := by
  induction bursts with
  | nil => simp
  | cons b bursts ih =>
      rw [List.map_cons, List.flatMap_cons, serve_burst, ih,
        List.flatMap_cons]

theorem outputs_eq_mapIdx (f : C → K → D → O) (c : C) (k : K) (ds : List D) :
    outputs succ (fun c k d => [f c k d]) c k ds =
      ds.mapIdx fun n d => f c (succ^[n] k) d := by
  induction ds generalizing k with
  | nil => rfl
  | cons d ds ih => simp [outputs, ih, List.mapIdx_cons]

theorem outputs_flatMap {P : Type*} (g : O → List P)
    (c : C) (k : K) (ds : List D) :
    (outputs succ out c k ds).flatMap g =
      outputs succ (fun c k d => (out c k d).flatMap g) c k ds := by
  induction ds generalizing k with
  | nil => rfl
  | cons d ds ih => simp [outputs, ih]

/-- An output made on last beats only comes once for a whole burst. -/
theorem outputs_last (f : C → O) (b : Burst C last) (k : K) :
    outputs succ (fun c _ d => if last d then [f c] else []) b.cmd k b.beats =
      [f b.cmd] := by
  have hbody : ∀ ds : List D, (∀ d ∈ ds, last d = false) → ∀ k : K,
      outputs succ (fun c _ d => if last d then [f c] else []) b.cmd k ds =
        [] := by
    intro ds
    induction ds with
    | nil => simp [outputs]
    | cons d ds ih =>
        intro hds k
        rw [List.forall_mem_cons] at hds
        simp [outputs, hds.1, ih hds.2]
  rw [Burst.beats, outputs_append, hbody _ b.body_not_last]
  simp [outputs, b.final_last]

/-! ## Servers with one output for each beat -/

theorem length_serve_le (f : C → K → D → O) (k : K)
    (cs : List C) (ds : List D) :
    (serve last first succ (fun c k d => [f c k d]) k cs ds).length ≤
      ds.length := by
  induction ds generalizing k cs with
  | nil => simp
  | cons d ds ih =>
      cases cs with
      | nil => simp
      | cons c cs =>
          cases hd : last d with
          | true => simp [serve_cons_last _ _ _ hd, ih]
          | false => simp [serve_cons_not_last _ _ _ hd, ih]

theorem ne_nil_of_serve_ne_nil {k : K} {cs : List C} {ds : List D}
    (h : serve last first succ out k cs ds ≠ []) : cs ≠ [] ∧ ds ≠ [] := by
  constructor
  · rintro rfl
    exact h (serve_nil_left _ _ _ _ _ _)
  · rintro rfl
    exact h (serve_nil_right _ _ _ _ _ _)

end Serve

end Bursts
