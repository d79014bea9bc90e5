import Mathlib

/-!
# Breadth-first search

The nodes of a graph in the order in which a queue reaches them, each once (`bfs`).  Every step takes one node from the
queue, so the number of edges and of nodes in the queue is fuel enough (`bfs_covers`, `bfs_closed`): what comes out holds
the queue and is closed under `children`.
-/

namespace Lib

variable {ν : Type} [DecidableEq ν]

/-- `visited` holds the nodes that have been taken from the queue before. -/
def bfs (children : ν → List ν) : Nat → List ν → List ν → List ν
  | 0, _, _ => []
  | _ + 1, [], _ => []
  | n + 1, v :: queue, visited =>
    if v ∈ visited then bfs children n queue visited
    else v :: bfs children n (queue ++ children v) (v :: visited)

/-- The steps that a search can still take: one for each node in the queue and for each edge from a node that has not
been visited. -/
def potential (children : ν → List ν) (nodes queue visited : List ν) : Nat :=
  queue.length + ((nodes.filter fun v => v ∉ visited).map fun v => (children v).length).sum

variable {children : ν → List ν} {nodes : List ν}

theorem potential_skip (v : ν) (queue visited : List ν) :
    potential children nodes (v :: queue) visited = potential children nodes queue visited + 1 := by
  simp only [potential, List.length_cons]
  omega

/-- A node that is visited gives its edges to the queue. -/
theorem potential_visit {v : ν} {queue visited : List ν} (hnodup : nodes.Nodup) (hv : v ∈ nodes) (hnew : v ∉ visited) :
    potential children nodes (v :: queue) visited =
      potential children nodes (queue ++ children v) (v :: visited) + 1 := by
  have hperm : (nodes.filter fun u => u ∉ visited).Perm (v :: nodes.filter fun u => u ∉ v :: visited) := by
    refine (List.perm_ext_iff_of_nodup (hnodup.filter _) ?_).2 fun u => ?_
    · rw [List.nodup_cons]
      refine ⟨?_, hnodup.filter _⟩
      simp
    · simp only [List.mem_filter, List.mem_cons, decide_eq_true_eq, not_or]
      by_cases hu : u = v
      · simp [hu, hv, hnew]
      · simp [hu]
  have hsum := (hperm.map fun u => (children u).length).sum_eq
  simp only [potential, List.length_cons, List.length_append]
  rw [hsum, List.map_cons, List.sum_cons]
  omega

section

variable (hnodup : nodes.Nodup) (hclosed : ∀ u ∈ nodes, ∀ c ∈ children u, c ∈ nodes)
include hnodup hclosed

/-- What is in the queue comes out, or has been visited, and so do the children of what comes out. -/
private theorem bfs_spec {fuel : Nat} {queue visited : List ν} (hqueue : ∀ v ∈ queue, v ∈ nodes)
    (hfuel : potential children nodes queue visited ≤ fuel) :
    (∀ v ∈ queue, v ∈ bfs children fuel queue visited ∨ v ∈ visited) ∧
      ∀ v ∈ bfs children fuel queue visited, ∀ c ∈ children v, c ∈ bfs children fuel queue visited ∨ c ∈ visited := by
  induction fuel generalizing queue visited with
  | zero =>
    have hempty : queue = [] := by
      cases queue with
      | nil => rfl
      | cons v queue =>
        rw [potential_skip] at hfuel
        omega
    rw [hempty]
    simp [bfs]
  | succ n ih =>
    cases queue with
    | nil => simp [bfs]
    | cons v queue =>
      rw [List.forall_mem_cons] at hqueue
      by_cases hv : v ∈ visited
      · have hstep : bfs children (n + 1) (v :: queue) visited = bfs children n queue visited := if_pos hv
        rw [potential_skip] at hfuel
        obtain ⟨hcovers, hkeeps⟩ := @ih queue visited hqueue.2 (by omega)
        rw [hstep, List.forall_mem_cons]
        exact ⟨⟨.inr hv, hcovers⟩, hkeeps⟩
      · have hstep : bfs children (n + 1) (v :: queue) visited =
            v :: bfs children n (queue ++ children v) (v :: visited) := if_neg hv
        rw [potential_visit hnodup hqueue.1 hv] at hfuel
        have hnext : ∀ u ∈ queue ++ children v, u ∈ nodes := by
          intro u hu
          rcases List.mem_append.1 hu with hu | hu
          · exact hqueue.2 u hu
          · exact hclosed v hqueue.1 u hu
        obtain ⟨hcovers, hkeeps⟩ := @ih (queue ++ children v) (v :: visited) hnext (by omega)
        have hor : ∀ u, u ∈ bfs children n (queue ++ children v) (v :: visited) ∨ u ∈ v :: visited →
            u ∈ v :: bfs children n (queue ++ children v) (v :: visited) ∨ u ∈ visited := by
          intro u hu
          simp only [List.mem_cons] at hu ⊢
          tauto
        rw [hstep]
        refine ⟨fun u hu => ?_, fun u hu c hc => ?_⟩
        · rcases List.mem_cons.1 hu with rfl | hu
          · exact .inl List.mem_cons_self
          · exact hor u (hcovers u (List.mem_append_left _ hu))
        · rcases List.mem_cons.1 hu with rfl | hu
          · exact hor c (hcovers c (List.mem_append_right _ hc))
          · exact hor c (hkeeps u hu c hc)

theorem bfs_covers {fuel : Nat} {queue : List ν} (hqueue : ∀ v ∈ queue, v ∈ nodes)
    (hfuel : potential children nodes queue [] ≤ fuel) : ∀ v ∈ queue, v ∈ bfs children fuel queue [] := by
  intro v hv
  simpa using (bfs_spec hnodup hclosed hqueue hfuel).1 v hv

theorem bfs_closed {fuel : Nat} {queue : List ν} (hqueue : ∀ v ∈ queue, v ∈ nodes)
    (hfuel : potential children nodes queue [] ≤ fuel) :
    ∀ v ∈ bfs children fuel queue [], ∀ c ∈ children v, c ∈ bfs children fuel queue [] := by
  intro v hv c hc
  simpa using (bfs_spec hnodup hclosed hqueue hfuel).2 v hv c hc

end

/-- What comes out has every property that the queue has and children inherit. -/
theorem bfs_sound {P : ν → Prop} (hkeep : ∀ v, P v → ∀ c ∈ children v, P c) {fuel : Nat} {queue visited : List ν}
    (hqueue : ∀ v ∈ queue, P v) : ∀ v ∈ bfs children fuel queue visited, P v := by
  induction fuel generalizing queue visited with
  | zero => simp [bfs]
  | succ n ih =>
    cases queue with
    | nil => simp [bfs]
    | cons v queue =>
      rw [List.forall_mem_cons] at hqueue
      rw [bfs]
      split
      · exact ih hqueue.2
      · rw [List.forall_mem_cons]
        refine ⟨hqueue.1, ih fun u hu => ?_⟩
        rcases List.mem_append.1 hu with hu | hu
        · exact hqueue.2 u hu
        · exact hkeep v hqueue.1 u hu

/-- What has been visited does not come out again. -/
theorem notMem_visited_of_mem_bfs {fuel : Nat} {queue visited : List ν} :
    ∀ v ∈ bfs children fuel queue visited, v ∉ visited := by
  induction fuel generalizing queue visited with
  | zero => simp [bfs]
  | succ n ih =>
    cases queue with
    | nil => simp [bfs]
    | cons v queue =>
      rw [bfs]
      split
      · exact ih
      · rename_i hv
        rw [List.forall_mem_cons]
        exact ⟨hv, fun u hu hvisited => ih u hu (List.mem_cons_of_mem _ hvisited)⟩

end Lib
