/-
# The snooping crossbar

The `Crossbar` topology gives each of `n` controllers a router of its own and
joins the routers by a central switch with the number `n`.  `Topology` numbers
the ends of the links: `d` is the input of controller `d`, `n + d` its output,
`2 * n + s` is switch `s`, so that the central switch is `3 * n`.

`createLinks` computes all distances (`extendShortestPath`) and makes the links
in the order of their ends, which numbers the ports of every switch; a link
into the central switch is given all controllers as its routing entry.
`PerfectSwitch::operateVnet` sends a copy down every link whose entry meets the
destinations; switches with a number below 5 leave out the port the message
came in by.

The 5 is the number of controllers for which this is right: with fewer the
central switch leaves out a port too, with more the routers from 5 on send
messages back.

A copy is a message on a link with its internal destinations.  Queues and
throttles delay copies and never lose one, so any copy may move next.
-/
import Gem5.ShortestPaths
import Gem5.TransitionSystem

/-! ## The topology -/

def INFINITE_LATENCY : ℕ := 10000

/-- The links of the constructor of `Topology`, both directions of each. -/
def crossbarLinks (n : ℕ) : List (ℕ × ℕ) :=
  ((List.range n).flatMap fun i => [(i, 2 * n + i), (2 * n + i, n + i)]) ++
    (List.range n).flatMap fun i => [(2 * n + i, 3 * n), (3 * n, 2 * n + i)]

/-- `max_switch_id + 1`. -/
def numSwitches (n : ℕ) : ℕ :=
  (crossbarLinks n).foldl (fun m l => max (max m l.1) l.2) 0 + 1

/-- `topology_weights`. -/
def topologyWeights (n : ℕ) : DistMatrix ℕ := fun i j =>
  if (i, j) ∈ crossbarLinks n then 1 else if i = j then 0 else INFINITE_LATENCY

/-- `shortest_path(topology_weights, …)`. -/
def dist (n : ℕ) : DistMatrix ℕ :=
  extendShortestPath (List.range (numSwitches n)) (topologyWeights n)

/-- `shortest_path_to_node`: the controllers in the routing entry of a link.  The test on `next`
is the source's `next-(2*m_nodes) == m_nodes`. -/
def shortestPathToNode (n src next : ℕ) : Finset ℕ :=
  (Finset.range n).filter fun d =>
    next = 3 * n ∨ topologyWeights n src next + dist n next (n + d) = dist n src (n + d)

/-- The link exists: its weight is positive and not infinite. -/
def isLink (n : ℕ) (p : ℕ × ℕ) : Bool :=
  decide (0 < topologyWeights n p.1 p.2) && decide (topologyWeights n p.1 p.2 ≠ INFINITE_LATENCY)

/-- The links in the order in which `createLinks` makes them. -/
def createLinks (n : ℕ) : List (ℕ × ℕ) :=
  (List.range (numSwitches n) ×ˢ List.range (numSwitches n)).filter (isLink n)

/-- `m_in` of a switch: `addInPort` is called once for every link into it. -/
def inPorts (n switch : ℕ) : List (ℕ × ℕ) :=
  (createLinks n).filter fun p => decide (p.2 = 2 * n + switch)

/-- `m_out` of a switch. -/
def outPorts (n switch : ℕ) : List (ℕ × ℕ) :=
  (createLinks n).filter fun p => decide (p.1 = 2 * n + switch)

/-! ## Forwarding -/

/-- A copy of the message on a link, with its internal destinations. -/
structure Copy where
  link : ℕ × ℕ
  dests : Finset ℕ
  deriving DecidableEq

/-- `PerfectSwitch::operateVnet` on one message that has arrived at a switch. -/
def operateSwitch (n switch : ℕ) (c : Copy) : List Copy :=
  (outPorts n switch).zipIdx.filterMap fun (link, outgoing) =>
    let dst := shortestPathToNode n link.1 link.2
    if c.dests ∩ dst = ∅ then none
    else if switch < 5 ∧ (inPorts n switch).idxOf c.link = outgoing then none
    else some ⟨link, c.dests ∩ dst⟩

/-- The copies under way and the controllers that have got one. -/
structure Flight where
  inFlight : List Copy
  delivered : List ℕ := []

/-- One copy reaches the end of its link: a controller, or a switch that sends it on. -/
def Flight.step (n : ℕ) (s : Flight) (k : ℕ) : Except Abort Flight :=
  match s.inFlight[k]? with
  | none => .error .undefined
  | some c =>
    if c.link.2 < 2 * n then
      .ok { inFlight := s.inFlight.eraseIdx k, delivered := s.delivered ++ [c.link.2 - n] }
    else
      .ok { s with inFlight := s.inFlight.eraseIdx k ++ operateSwitch n (c.link.2 - 2 * n) c }

/-- Controller `a` sends a message. -/
def Flight.inject (n a : ℕ) (dests : Finset ℕ) : Flight where
  inFlight := [⟨(a, 2 * n + a), dests⟩]

/-- No copy can move. -/
def Flight.Stopped (n : ℕ) (s : Flight) : Prop := ∀ k t, s.step n k ≠ .ok t

/-- **Exactly-once delivery**: whoever sends to whichever controllers, the message stops moving
after a bounded number of steps, and then each destination has got it once and nobody else has. -/
def ExactlyOnce (n : ℕ) : Prop :=
  ∀ a < n, ∀ dests ⊆ Finset.range n, ∃ bound, ∀ ks s,
    Runs (Within (Flight.step n) Anytime) (.inject n a dests) ks s → ks.length ≤ bound ∧
      (s.Stopped n → ∀ d, s.delivered.count d = if d ∈ dests then 1 else 0)

theorem Flight.stopped_iff (n : ℕ) (s : Flight) : s.Stopped n ↔ s.inFlight = [] := by
  constructor
  · intro h
    cases hs : s.inFlight with
    | nil => rfl
    | cons c rest =>
      -- the first copy can move
      have h0 := h 0
      unfold Flight.step at h0
      rw [hs, List.getElem?_cons_zero] at h0
      dsimp only at h0
      split_ifs at h0
      · exact absurd rfl (h0 _)
      · exact absurd rfl (h0 _)
  · intro hs k t h
    unfold Flight.step at h
    rw [hs] at h
    cases h

/-! ## Links and distances -/

variable {n r d : ℕ}

variable {i j k a steps : ℕ} {s : Flight} {c : Copy}

theorem mem_crossbarLinks : (i, j) ∈ crossbarLinks n ↔
    ∃ r < n, (i = r ∧ j = 2 * n + r) ∨ (i = 2 * n + r ∧ j = n + r) ∨
      (i = 2 * n + r ∧ j = 3 * n) ∨ (i = 3 * n ∧ j = 2 * n + r) := by
  simp only [crossbarLinks, List.mem_append, List.mem_flatMap, List.mem_range, List.mem_cons,
    List.not_mem_nil, or_false, Prod.mk.injEq]
  constructor
  · rintro (⟨r, hr, h | h⟩ | ⟨r, hr, h | h⟩)
    · exact ⟨r, hr, .inl h⟩
    · exact ⟨r, hr, .inr (.inl h)⟩
    · exact ⟨r, hr, .inr (.inr (.inl h))⟩
    · exact ⟨r, hr, .inr (.inr (.inr h))⟩
  · rintro ⟨r, hr, h | h | h | h⟩
    · exact .inl ⟨r, hr, .inl h⟩
    · exact .inl ⟨r, hr, .inr h⟩
    · exact .inr ⟨r, hr, .inl h⟩
    · exact .inr ⟨r, hr, .inr h⟩

/-- The ends of the links are counted. -/
theorem lt_numSwitches (h : (i, j) ∈ crossbarLinks n) :
    i < numSwitches n ∧ j < numSwitches n := by
  have hfold : ∀ (l : List (ℕ × ℕ)) (m : ℕ),
      m ≤ l.foldl (fun m l => max (max m l.1) l.2) m ∧
        ∀ p ∈ l, p.1 ≤ l.foldl (fun m l => max (max m l.1) l.2) m ∧
          p.2 ≤ l.foldl (fun m l => max (max m l.1) l.2) m := by
    intro l
    induction l with
    | nil => simp
    | cons q l ih =>
      intro m
      obtain ⟨hm, hl⟩ := ih (max (max m q.1) q.2)
      rw [List.foldl_cons]
      refine ⟨by omega, List.forall_mem_cons.mpr ⟨⟨by omega, by omega⟩, hl⟩⟩
  have := (hfold (crossbarLinks n) 0).2 _ h
  unfold numSwitches
  omega

theorem link_in (hr : r < n) : (r, 2 * n + r) ∈ crossbarLinks n :=
  mem_crossbarLinks.mpr ⟨r, hr, .inl ⟨rfl, rfl⟩⟩

theorem link_out (hr : r < n) : (2 * n + r, n + r) ∈ crossbarLinks n :=
  mem_crossbarLinks.mpr ⟨r, hr, .inr (.inl ⟨rfl, rfl⟩)⟩

theorem link_up (hr : r < n) : (2 * n + r, 3 * n) ∈ crossbarLinks n :=
  mem_crossbarLinks.mpr ⟨r, hr, .inr (.inr (.inl ⟨rfl, rfl⟩))⟩

theorem link_down (hr : r < n) : (3 * n, 2 * n + r) ∈ crossbarLinks n :=
  mem_crossbarLinks.mpr ⟨r, hr, .inr (.inr (.inr ⟨rfl, rfl⟩))⟩

theorem isLink_iff : isLink n (i, j) = true ↔ (i, j) ∈ crossbarLinks n := by
  have hiff : isLink n (i, j) = true ↔
      0 < topologyWeights n i j ∧ topologyWeights n i j ≠ INFINITE_LATENCY := by
    simp [isLink]
  rw [hiff]
  unfold topologyWeights INFINITE_LATENCY
  split
  · rename_i h
    simp [h]
  · rename_i h
    refine iff_of_false ?_ h
    split_ifs <;> omega

theorem dist_le_one (h : (i, j) ∈ crossbarLinks n) : dist n i j ≤ 1 := by
  refine (extendShortestPath_le _ _ i j).trans ?_
  unfold topologyWeights
  rw [if_pos h]

theorem dist_le_add (hi : i < numSwitches n) (hj : j < numSwitches n)
    (hk : k < numSwitches n) : dist n i j ≤ dist n i k + dist n k j :=
  extendShortestPath_triangle _ (List.mem_range.mpr hi) (List.mem_range.mpr hj)
    (List.mem_range.mpr hk)

/-- The distance from an end to the output of controller `d`. -/
def distTo (n d i : ℕ) : ℕ :=
  if i = n + d then 0
  else if i = 2 * n + d then 1
  else if i = d ∨ i = 3 * n then 2
  else if 2 * n ≤ i ∧ i < 3 * n then 3
  else if i < n then 4
  else INFINITE_LATENCY

theorem distTo_le (i : ℕ) : distTo n d i ≤ INFINITE_LATENCY := by
  unfold distTo INFINITE_LATENCY
  split_ifs <;> omega

theorem distTo_output : distTo n d (n + d) = 0 := if_pos rfl

theorem distTo_router (hd : d < n) : distTo n d (2 * n + d) = 1 := by
  unfold distTo
  rw [if_neg (by omega), if_pos rfl]

theorem distTo_central (hd : d < n) : distTo n d (3 * n) = 2 := by
  unfold distTo
  rw [if_neg (by omega), if_neg (by omega), if_pos (.inr rfl)]

theorem distTo_other_router (hr : r < n) (hd : d < n) (hne : d ≠ r) :
    distTo n d (2 * n + r) = 3 := by
  unfold distTo
  rw [if_neg (by omega), if_neg (by omega), if_neg (by omega), if_pos (by omega)]

theorem distTo_other_output (hr : r < n) (hd : d < n) (hne : d ≠ r) :
    distTo n d (n + r) = INFINITE_LATENCY := by
  unfold distTo
  rw [if_neg (by omega), if_neg (by omega), if_neg (by omega), if_neg (by omega),
    if_neg (by omega)]

theorem distTo_input (hr : r < n) : distTo n d r = if r = d then 2 else 4 := by
  unfold distTo
  rw [if_neg (by omega), if_neg (by omega)]
  by_cases h : r = d
  · rw [if_pos (.inl h), if_pos h]
  · rw [if_neg (by omega), if_neg (by omega), if_pos hr, if_neg h]

theorem feasible_distTo (hd : d < n) : Feasible (distTo n d) (topologyWeights n) := by
  intro i j
  unfold topologyWeights
  split
  · rename_i hlink
    -- along a link the distance falls by at most one
    obtain ⟨r, hr, h⟩ := mem_crossbarLinks.mp hlink
    have hinput := distTo_input (d := d) hr
    have hcentral := distTo_central hd
    rcases eq_or_ne d r with rfl | hrd
    · have hrouter := distTo_router hd
      rw [if_pos rfl] at hinput
      rcases h with ⟨rfl, rfl⟩ | ⟨rfl, rfl⟩ | ⟨rfl, rfl⟩ | ⟨rfl, rfl⟩ <;> omega
    · have hrouter := distTo_other_router hr hd hrd
      have houtput := distTo_other_output hr hd hrd
      unfold INFINITE_LATENCY at houtput
      rw [if_neg (Ne.symm hrd)] at hinput
      rcases h with ⟨rfl, rfl⟩ | ⟨rfl, rfl⟩ | ⟨rfl, rfl⟩ | ⟨rfl, rfl⟩ <;> omega
  · split
    · rename_i hij
      rw [hij]
      omega
    · exact (distTo_le i).trans (Nat.le_add_right _ _)

/-- No path is shorter. -/
theorem distTo_le_dist (hd : d < n) (i : ℕ) : distTo n d i ≤ dist n i (n + d) := by
  have h := feasible_extendShortestPath (feasible_distTo hd) (List.range (numSwitches n)) i (n + d)
  rw [distTo_output] at h
  exact h

/-- The distances to the output of controller `d`, from its own router, the central switch and the
other routers. -/
theorem dist_router (hd : d < n) : dist n (2 * n + d) (n + d) = 1 := by
  have h := distTo_le_dist hd (2 * n + d)
  rw [distTo_router hd] at h
  have := dist_le_one (link_out hd)
  omega

theorem dist_central (hd : d < n) : dist n (3 * n) (n + d) = 2 := by
  have h := distTo_le_dist hd (3 * n)
  rw [distTo_central hd] at h
  have hadd := dist_le_add (lt_numSwitches (link_down hd)).1 (lt_numSwitches (link_out hd)).2
    (lt_numSwitches (link_down hd)).2
  have := dist_le_one (link_down hd)
  have := dist_router hd
  omega

theorem dist_other_router (hr : r < n) (hd : d < n) (hne : d ≠ r) :
    dist n (2 * n + r) (n + d) = 3 := by
  have h := distTo_le_dist hd (2 * n + r)
  rw [distTo_other_router hr hd hne] at h
  have hadd := dist_le_add (lt_numSwitches (link_up hr)).1 (lt_numSwitches (link_out hd)).2
    (lt_numSwitches (link_up hr)).2
  have := dist_le_one (link_up hr)
  have := dist_central hd
  omega

/-- From the output of another controller there is no way. -/
theorem le_dist_output (hr : r < n) (hd : d < n) (hne : d ≠ r) :
    INFINITE_LATENCY ≤ dist n (n + r) (n + d) := by
  have h := distTo_le_dist hd (n + r)
  rwa [distTo_other_output hr hd hne] at h

theorem dist_same (i : ℕ) (h : (i, i) ∉ crossbarLinks n) : dist n i i = 0 := by
  have hle := extendShortestPath_le (List.range (numSwitches n)) (topologyWeights n) i i
  have hw : topologyWeights n i i = 0 := by
    unfold topologyWeights
    rw [if_neg h, if_pos rfl]
  rw [hw] at hle
  exact Nat.le_zero.mp hle

/-! ## Routing entries -/

theorem weight_link (h : (i, j) ∈ crossbarLinks n) : topologyWeights n i j = 1 :=
  if_pos h

theorem entry_up (src : ℕ) : shortestPathToNode n src (3 * n) = Finset.range n := by
  unfold shortestPathToNode
  simp

theorem entry_out (hr : r < n) : shortestPathToNode n (2 * n + r) (n + r) = {r} := by
  ext d
  simp only [shortestPathToNode, Finset.mem_filter, Finset.mem_range, Finset.mem_singleton]
  constructor
  · rintro ⟨hd, h | h⟩
    · omega
    · by_contra hne
      rw [dist_other_router hr hd hne] at h
      have := le_dist_output hr hd hne
      unfold INFINITE_LATENCY at this
      omega
  · rintro rfl
    refine ⟨hr, .inr ?_⟩
    rw [weight_link (link_out hr), dist_router hr, dist_same]
    intro hself
    obtain ⟨r, hr, h⟩ := mem_crossbarLinks.mp hself
    omega

theorem entry_down (hr : r < n) : shortestPathToNode n (3 * n) (2 * n + r) = {r} := by
  ext d
  simp only [shortestPathToNode, Finset.mem_filter, Finset.mem_range, Finset.mem_singleton]
  constructor
  · rintro ⟨hd, h | h⟩
    · omega
    · by_contra hne
      rw [dist_other_router hr hd hne, dist_central hd] at h
      omega
  · rintro rfl
    exact ⟨hr, .inr (by rw [weight_link (link_down hr), dist_router hr, dist_central hr])⟩

/-! ## Ports -/

/-- The ends below a bound that satisfy a test, given as an increasing list. -/
theorem ends_eq {N : ℕ} {p : ℕ → Bool} {ends : List ℕ} (hends : ends.Pairwise (· < ·))
    (h : ∀ j, j ∈ ends ↔ j < N ∧ p j = true) : (List.range N).filter p = ends := by
  have hfilter : ((List.range N).filter p).SortedLT := (List.pairwise_lt_range.filter p).sortedLT
  refine hfilter.eq_of_mem_iff hends.sortedLT fun j => ?_
  rw [List.mem_filter, List.mem_range, h]

/-- The pairs of a product in one row. -/
theorem filter_product_fst {l' : List ℕ} {q : ℕ × ℕ → Bool} {s : ℕ} (l : List ℕ) : l.Nodup →
    s ∈ l → (l ×ˢ l').filter (fun p => q p && decide (p.1 = s)) =
      (l'.filter fun j => q (s, j)).map fun j => (s, j) := by
  induction l with
  | nil =>
    intro _ hs
    cases hs
  | cons i l ih =>
    intro hl hs
    obtain ⟨hi, hl⟩ := List.nodup_cons.mp hl
    rw [List.product_cons, List.filter_append, List.filter_map]
    by_cases his : i = s
    · -- this row, and no later one
      subst his
      have hrest : (l ×ˢ l').filter (fun p => q p && decide (p.1 = i)) = [] := by
        rw [List.filter_eq_nil_iff]
        intro p hp hq
        have hfst : p.1 = i := by
          rw [Bool.and_eq_true] at hq
          exact of_decide_eq_true hq.2
        exact hi (hfst ▸ (List.mem_product.mp hp).1)
      rw [hrest]
      simp [Function.comp_def]
    · have hmem : s ∈ l := (List.mem_cons.mp hs).resolve_left fun h => his h.symm
      rw [ih hl hmem]
      simp [Function.comp_def, his]

/-- The pairs of a product in one column. -/
theorem filter_product_snd {l' : List ℕ} {q : ℕ × ℕ → Bool} {t : ℕ} (hl : l'.Nodup) (ht : t ∈ l')
    (l : List ℕ) : (l ×ˢ l').filter (fun p => q p && decide (p.2 = t)) =
      (l.filter fun i => q (i, t)).map fun i => (i, t) := by
  induction l with
  | nil => rfl
  | cons i l ih =>
    have hrow : l'.filter (fun j => q (i, j) && decide (j = t)) = if q (i, t) then [t] else [] := by
      have hsplit : l'.filter (fun j => q (i, j) && decide (j = t)) =
          (l'.filter fun j => decide (j = t)).filter fun j => q (i, j) := by
        rw [List.filter_filter]
      have hone : (l'.filter fun j => decide (j = t)) = [t] := by
        rw [List.filter_eq, List.count_eq_one_of_mem hl ht, List.replicate_one]
      rw [hsplit, hone]
      by_cases hq : q (i, t) = true
      · simp [hq]
      · simp [hq]
    rw [List.product_cons, List.filter_append, List.filter_map, ih]
    simp only [Function.comp_def]
    rw [hrow]
    by_cases hq : q (i, t) = true
    · simp [hq]
    · simp [hq]

theorem outPorts_eq {s : ℕ} (hs : 2 * n + s < numSwitches n) : outPorts n s =
    ((List.range (numSwitches n)).filter fun j => isLink n (2 * n + s, j)).map
      fun j => (2 * n + s, j) := by
  unfold outPorts createLinks
  rw [List.filter_filter, ← filter_product_fst _ List.nodup_range (List.mem_range.mpr hs)]
  congr 1
  funext p
  rw [Bool.and_comm]

theorem inPorts_eq {s : ℕ} (hs : 2 * n + s < numSwitches n) : inPorts n s =
    ((List.range (numSwitches n)).filter fun i => isLink n (i, 2 * n + s)).map
      fun i => (i, 2 * n + s) := by
  unfold inPorts createLinks
  rw [List.filter_filter, ← filter_product_snd List.nodup_range (List.mem_range.mpr hs)]
  congr 1
  funext p
  rw [Bool.and_comm]

/-- A router sends to its controller by port 0 and to the central switch by port 1. -/
theorem outPorts_router (hr : r < n) :
    outPorts n r = [(2 * n + r, n + r), (2 * n + r, 3 * n)] := by
  rw [outPorts_eq (lt_numSwitches (link_out hr)).1]
  have hrow : ((List.range (numSwitches n)).filter fun j => isLink n (2 * n + r, j)) =
      [n + r, 3 * n] := by
    refine ends_eq (by simp; omega) fun j => ?_
    rw [isLink_iff]
    constructor
    · intro hj
      have hlink : (2 * n + r, j) ∈ crossbarLinks n := by
        rcases List.mem_pair.mp hj with rfl | rfl
        · exact link_out hr
        · exact link_up hr
      exact ⟨(lt_numSwitches hlink).2, hlink⟩
    · rintro ⟨-, hlink⟩
      obtain ⟨r', hr', h⟩ := mem_crossbarLinks.mp hlink
      exact List.mem_pair.mpr (by omega)
  rw [hrow]
  rfl

theorem inPorts_router (hr : r < n) : inPorts n r = [(r, 2 * n + r), (3 * n, 2 * n + r)] := by
  rw [inPorts_eq (lt_numSwitches (link_out hr)).1]
  have hcol : ((List.range (numSwitches n)).filter fun i => isLink n (i, 2 * n + r)) =
      [r, 3 * n] := by
    refine ends_eq (by simp; omega) fun i => ?_
    rw [isLink_iff]
    constructor
    · intro hi
      have hlink : (i, 2 * n + r) ∈ crossbarLinks n := by
        rcases List.mem_pair.mp hi with rfl | rfl
        · exact link_in hr
        · exact link_down hr
      exact ⟨(lt_numSwitches hlink).1, hlink⟩
    · rintro ⟨-, hlink⟩
      obtain ⟨r', hr', h⟩ := mem_crossbarLinks.mp hlink
      exact List.mem_pair.mpr (by omega)
  rw [hcol]
  rfl

/-- The routers are the ports of the central switch, in their order. -/
theorem outPorts_central (hn : 0 < n) :
    outPorts n n = (List.range n).map fun r => (3 * n, 2 * n + r) := by
  have h3 : 2 * n + n = 3 * n := by omega
  rw [outPorts_eq (by rw [h3]; exact (lt_numSwitches (link_down hn)).1), h3]
  have hrow : ((List.range (numSwitches n)).filter fun j => isLink n (3 * n, j)) =
      (List.range n).map fun r => 2 * n + r := by
    refine ends_eq ?_ fun j => ?_
    · rw [List.pairwise_map]
      exact List.pairwise_lt_range.imp fun h => by omega
    · rw [isLink_iff, List.mem_map]
      constructor
      · rintro ⟨r, hr, rfl⟩
        have hlink := link_down (List.mem_range.mp hr)
        exact ⟨(lt_numSwitches hlink).2, hlink⟩
      · rintro ⟨-, hlink⟩
        obtain ⟨r, hr, h⟩ := mem_crossbarLinks.mp hlink
        exact ⟨r, List.mem_range.mpr hr, by omega⟩
  rw [hrow, List.map_map]
  rfl

theorem inPorts_central (hn : 0 < n) :
    inPorts n n = (List.range n).map fun r => (2 * n + r, 3 * n) := by
  have h3 : 2 * n + n = 3 * n := by omega
  rw [inPorts_eq (by rw [h3]; exact (lt_numSwitches (link_down hn)).1), h3]
  have hcol : ((List.range (numSwitches n)).filter fun i => isLink n (i, 3 * n)) =
      (List.range n).map fun r => 2 * n + r := by
    refine ends_eq ?_ fun i => ?_
    · rw [List.pairwise_map]
      exact List.pairwise_lt_range.imp fun h => by omega
    · rw [isLink_iff, List.mem_map]
      constructor
      · rintro ⟨r, hr, rfl⟩
        have hlink := link_up (List.mem_range.mp hr)
        exact ⟨(lt_numSwitches hlink).1, hlink⟩
      · rintro ⟨-, hlink⟩
        obtain ⟨r, hr, h⟩ := mem_crossbarLinks.mp hlink
        exact ⟨r, List.mem_range.mpr hr, by omega⟩
  rw [hcol, List.map_map]
  rfl

/-! ## What the switches send -/

variable {dests : Finset ℕ}

/-- What `operateVnet` does with one output port. -/
def sendOn (n switch incoming : ℕ) (dests : Finset ℕ) (p : (ℕ × ℕ) × ℕ) : Option Copy :=
  if dests ∩ shortestPathToNode n p.1.1 p.1.2 = ∅ then none
  else if switch < 5 ∧ incoming = p.2 then none
  else some ⟨p.1, dests ∩ shortestPathToNode n p.1.1 p.1.2⟩

theorem operateSwitch_eq (n switch : ℕ) (c : Copy) : operateSwitch n switch c =
    (outPorts n switch).zipIdx.filterMap
      (sendOn n switch ((inPorts n switch).idxOf c.link) c.dests) := rfl

/-- A router with a message from its controller: back to the controller only from switch 5 on,
and up to the central switch. -/
theorem operateSwitch_from_controller (hr : r < n) (hne : dests.Nonempty)
    (hsub : dests ⊆ Finset.range n) : operateSwitch n r ⟨(r, 2 * n + r), dests⟩ =
      (if r ∈ dests ∧ 5 ≤ r then [⟨(2 * n + r, n + r), {r}⟩] else []) ++
        [⟨(2 * n + r, 3 * n), dests⟩] := by
  have hport : (inPorts n r).idxOf (r, 2 * n + r) = 0 := by
    rw [inPorts_router hr, List.idxOf_cons_self]
  rw [operateSwitch_eq, hport, outPorts_router hr]
  have hup : sendOn n r 0 dests ((2 * n + r, 3 * n), 1) = some ⟨(2 * n + r, 3 * n), dests⟩ := by
    unfold sendOn
    rw [entry_up, Finset.inter_eq_left.mpr hsub, if_neg hne.ne_empty, if_neg (by omega)]
  have hout : sendOn n r 0 dests ((2 * n + r, n + r), 0) =
      if r ∈ dests ∧ 5 ≤ r then some ⟨(2 * n + r, n + r), {r}⟩ else none := by
    unfold sendOn
    rw [entry_out hr]
    by_cases hmem : r ∈ dests
    · rw [Finset.inter_singleton_of_mem hmem, if_neg (Finset.singleton_ne_empty r)]
      by_cases h5 : r < 5
      · rw [if_pos ⟨h5, rfl⟩, if_neg (by omega)]
      · rw [if_neg (by omega), if_pos ⟨hmem, by omega⟩]
    · rw [Finset.inter_singleton_of_notMem hmem, if_pos rfl, if_neg (fun h => hmem h.1)]
  rw [List.zipIdx_cons, List.zipIdx_cons, List.filterMap_cons, List.filterMap_cons,
    hout, hup]
  split_ifs <;> rfl

/-- A router with a message from the central switch: to its controller, and back up only from
switch 5 on. -/
theorem operateSwitch_from_central (hr : r < n) :
    operateSwitch n r ⟨(3 * n, 2 * n + r), {r}⟩ =
      ⟨(2 * n + r, n + r), {r}⟩ :: if 5 ≤ r then [⟨(2 * n + r, 3 * n), {r}⟩] else [] := by
  have hport : (inPorts n r).idxOf (3 * n, 2 * n + r) = 1 := by
    rw [inPorts_router hr, List.idxOf_cons_ne _ (fun h => by simp at h; omega),
      List.idxOf_cons_self]
  rw [operateSwitch_eq, hport, outPorts_router hr]
  have hout : sendOn n r 1 {r} ((2 * n + r, n + r), 0) = some ⟨(2 * n + r, n + r), {r}⟩ := by
    unfold sendOn
    rw [entry_out hr, Finset.inter_self, if_neg (Finset.singleton_ne_empty r), if_neg (by omega)]
  have hup : sendOn n r 1 {r} ((2 * n + r, 3 * n), 1) =
      if 5 ≤ r then some ⟨(2 * n + r, 3 * n), {r}⟩ else none := by
    unfold sendOn
    rw [entry_up, Finset.inter_eq_left.mpr (by simpa using hr),
      if_neg (Finset.singleton_ne_empty r)]
    split_ifs <;> first | rfl | omega
  rw [List.zipIdx_cons, List.zipIdx_cons, List.filterMap_cons, List.filterMap_cons,
    hout, hup]
  split_ifs <;> rfl

/-- The central switch with a message from router `a`: one copy for each destination; with fewer
than 5 controllers none for `a` itself. -/
theorem operateSwitch_central (ha : a < n) :
    operateSwitch n n ⟨(2 * n + a, 3 * n), dests⟩ =
      ((List.range n).filter fun r => decide (r ∈ dests ∧ ¬ (n < 5 ∧ a = r))).map
        fun r => ⟨(3 * n, 2 * n + r), {r}⟩ := by
  have hn : 0 < n := by omega
  have hport : (inPorts n n).idxOf (2 * n + a, 3 * n) = a := by
    rw [inPorts_central hn]
    have hinj : Function.Injective fun r => (2 * n + r, 3 * n) := by
      intro r r' h
      simp at h
      exact h
    have hlen : a < ((List.range n).map fun r => (2 * n + r, 3 * n)).length := by simpa using ha
    have h := (List.nodup_range.map hinj).idxOf_getElem a hlen
    simpa using h
  have hzip : (List.range n).zipIdx = (List.range n).map fun r => (r, r) := by
    apply List.ext_getElem
    · simp
    · simp
  rw [operateSwitch_eq, hport, outPorts_central hn, List.zipIdx_map, hzip, List.map_map,
    List.filterMap_map, ← List.filterMap_eq_map, List.filterMap_filter]
  apply List.filterMap_congr
  intro r hr
  have hr := List.mem_range.mp hr
  show sendOn n n a dests ((3 * n, 2 * n + r), r) = _
  unfold sendOn
  rw [entry_down hr]
  by_cases hmem : r ∈ dests
  · rw [Finset.inter_singleton_of_mem hmem, if_neg (Finset.singleton_ne_empty r)]
    by_cases h : n < 5 ∧ a = r
    · rw [if_pos h, if_neg (by simp [h])]
    · rw [if_neg h, if_pos (by simp [hmem]; omega)]
      rfl
  · rw [Finset.inter_singleton_of_notMem hmem, if_pos rfl, if_neg (by simp [hmem])]

/-! ## Delivery with five controllers -/

/-- The copies that can be under way: from a controller, up to the central switch, down to a
router, out to a controller. -/
inductive Copy.Travels (n : ℕ) : Copy → Prop
  | inject {a : ℕ} {dests : Finset ℕ} :
      a < n → dests ⊆ Finset.range n → Travels n ⟨(a, 2 * n + a), dests⟩
  | up {a : ℕ} {dests : Finset ℕ} :
      a < n → dests ⊆ Finset.range n → Travels n ⟨(2 * n + a, 3 * n), dests⟩
  | down {r : ℕ} : r < n → Travels n ⟨(3 * n, 2 * n + r), {r}⟩
  | out {r : ℕ} : r < n → Travels n ⟨(2 * n + r, n + r), {r}⟩

/-- How many more steps a copy causes. -/
def Copy.stepsLeft (n : ℕ) (c : Copy) : ℕ :=
  if c.link.2 < 2 * n then 1
  else if c.link.1 = 3 * n then 2
  else if c.link.2 = 3 * n then 1 + 2 * c.dests.card
  else 2 + 2 * c.dests.card

/-- What a switch may make of a copy: copies for the same destinations, nearer to them. -/
structure Refines (n : ℕ) (c : Copy) (cs : List Copy) : Prop where
  travels : ∀ c' ∈ cs, c'.Travels n
  dests : ∀ d, cs.countP (fun c' => decide (d ∈ c'.dests)) = if d ∈ c.dests then 1 else 0
  steps : (cs.map (Copy.stepsLeft n)).sum < c.stepsLeft n

theorem stepsLeft_inject (ha : a < n) :
    Copy.stepsLeft n ⟨(a, 2 * n + a), dests⟩ = 2 + 2 * dests.card := by
  unfold Copy.stepsLeft
  rw [if_neg (by dsimp only; omega), if_neg (by dsimp only; omega), if_neg (by dsimp only; omega)]

theorem stepsLeft_up (ha : a < n) :
    Copy.stepsLeft n ⟨(2 * n + a, 3 * n), dests⟩ = 1 + 2 * dests.card := by
  unfold Copy.stepsLeft
  rw [if_neg (by dsimp only; omega), if_neg (by dsimp only; omega), if_pos rfl]

theorem stepsLeft_down : Copy.stepsLeft n ⟨(3 * n, 2 * n + r), dests⟩ = 2 := by
  unfold Copy.stepsLeft
  rw [if_neg (by dsimp only; omega), if_pos rfl]

theorem stepsLeft_out (hr : r < n) : Copy.stepsLeft n ⟨(2 * n + r, n + r), dests⟩ = 1 := by
  unfold Copy.stepsLeft
  rw [if_pos (by dsimp only; omega)]

theorem operateSwitch_empty (switch : ℕ) (link : ℕ × ℕ) :
    operateSwitch n switch ⟨link, ∅⟩ = [] := by
  rw [operateSwitch_eq, List.filterMap_eq_nil_iff]
  intro p _
  unfold sendOn
  rw [if_pos (Finset.empty_inter _)]

/-- With five controllers all routers leave out the port a message came in by, and the central
switch does not. -/
theorem refines_of_from_controller (ha : a < 5) (hsub : dests ⊆ Finset.range 5) :
    Refines 5 ⟨(a, 2 * 5 + a), dests⟩ (operateSwitch 5 a ⟨(a, 2 * 5 + a), dests⟩) := by
  rcases dests.eq_empty_or_nonempty with rfl | hne
  · rw [operateSwitch_empty]
    refine ⟨by simp, by simp, ?_⟩
    rw [stepsLeft_inject ha]
    simp
  · rw [operateSwitch_from_controller ha hne hsub, if_neg (by omega), List.nil_append]
    refine ⟨?_, ?_, ?_⟩
    · intro c' hc'
      rw [List.mem_singleton.mp hc']
      exact .up ha hsub
    · simp
    · rw [List.map_singleton, List.sum_singleton, stepsLeft_up ha, stepsLeft_inject ha]
      omega

theorem refines_of_central (ha : a < 5) (hsub : dests ⊆ Finset.range 5) :
    Refines 5 ⟨(2 * 5 + a, 3 * 5), dests⟩ (operateSwitch 5 5 ⟨(2 * 5 + a, 3 * 5), dests⟩) := by
  rw [operateSwitch_central ha]
  set rs := (List.range 5).filter fun r => decide (r ∈ dests ∧ ¬ (5 < 5 ∧ a = r)) with hrs
  have hmem : ∀ r, r ∈ rs ↔ r ∈ dests := by
    intro r
    rw [List.mem_filter, List.mem_range]
    rw [decide_eq_true_iff]
    constructor
    · exact fun h => h.2.1
    · exact fun h => ⟨Finset.mem_range.mp (hsub h), h, by omega⟩
  have hnodup : rs.Nodup := List.nodup_range.filter _
  have hlen : rs.length = dests.card := by
    rw [← List.toFinset_card_of_nodup hnodup]
    congr 1
    ext r
    rw [List.mem_toFinset, hmem]
  refine ⟨?_, ?_, ?_⟩
  · intro c' hc'
    obtain ⟨r, hr, rfl⟩ := List.mem_map.mp hc'
    exact .down (Finset.mem_range.mp (hsub ((hmem r).mp hr)))
  · intro d
    rw [List.countP_map]
    have hcount : rs.countP ((fun c' : Copy => decide (d ∈ c'.dests)) ∘
        fun r => ⟨(3 * 5, 2 * 5 + r), {r}⟩) = rs.count d := by
      congr 1
      funext r
      exact decide_eq_decide.mpr (Finset.mem_singleton.trans eq_comm)
    rw [hcount, hnodup.count]
    simp only [hmem]
  · rw [stepsLeft_up ha, List.map_map]
    have hsum : (rs.map (Copy.stepsLeft 5 ∘ fun r => ⟨(3 * 5, 2 * 5 + r), {r}⟩)).sum =
        2 * rs.length := by
      have hconst : (Copy.stepsLeft 5 ∘ fun r => ⟨(3 * 5, 2 * 5 + r), {r}⟩) = fun _ => 2 := by
        funext r
        exact stepsLeft_down
      rw [hconst, List.map_const', List.sum_replicate_nat, mul_comm]
    omega

theorem refines_of_from_central (hr : r < 5) :
    Refines 5 ⟨(3 * 5, 2 * 5 + r), {r}⟩ (operateSwitch 5 r ⟨(3 * 5, 2 * 5 + r), {r}⟩) := by
  rw [operateSwitch_from_central hr, if_neg (by omega)]
  refine ⟨?_, ?_, ?_⟩
  · intro c' hc'
    rw [List.mem_singleton.mp hc']
    exact .out hr
  · simp
  · rw [List.map_singleton, List.sum_singleton, stepsLeft_down, stepsLeft_out hr]
    omega

/-- What is still to come of the message. -/
structure Flight.OnTime (dests : Finset ℕ) (steps : ℕ) (s : Flight) : Prop where
  travels : ∀ c ∈ s.inFlight, c.Travels 5
  once : ∀ d, s.delivered.count d + s.inFlight.countP (fun c => decide (d ∈ c.dests)) =
    if d ∈ dests then 1 else 0
  bounded : steps + (s.inFlight.map (Copy.stepsLeft 5)).sum ≤ 2 + 2 * dests.card

theorem Flight.OnTime.send {rest cs : List Copy} (hs : s.OnTime dests steps)
    (hperm : s.inFlight.Perm (c :: rest)) (hcs : Refines 5 c cs) :
    Flight.OnTime dests (steps + 1) { s with inFlight := rest ++ cs } := by
  refine ⟨?_, ?_, ?_⟩
  · intro c' hc'
    rcases List.mem_append.mp hc' with hrest | hnew
    · exact hs.travels c' (hperm.mem_iff.mpr (List.mem_cons_of_mem c hrest))
    · exact hcs.travels c' hnew
  · intro d
    have hd := hs.once d
    have hnew := hcs.dests d
    rw [hperm.countP_eq, List.countP_cons] at hd
    simp only [decide_eq_true_eq] at hd
    rw [List.countP_append]
    dsimp only
    omega
  · have hb := hs.bounded
    have hless := hcs.steps
    rw [(hperm.map _).sum_nat, List.map_cons, List.sum_cons] at hb
    rw [List.map_append, List.sum_append_nat]
    omega

theorem Flight.OnTime.deliver {rest : List Copy} (hs : s.OnTime dests steps) (hr : r < 5)
    (hperm : s.inFlight.Perm (⟨(2 * 5 + r, 5 + r), {r}⟩ :: rest)) :
    Flight.OnTime dests (steps + 1) ⟨rest, s.delivered ++ [r]⟩ := by
  refine ⟨?_, ?_, ?_⟩
  · intro c' hc'
    exact hs.travels c' (hperm.mem_iff.mpr (List.mem_cons_of_mem _ hc'))
  · intro d
    have hd := hs.once d
    rw [hperm.countP_eq, List.countP_cons] at hd
    simp only [decide_eq_true_eq, Finset.mem_singleton] at hd
    rw [List.count_append, List.count_singleton]
    simp only [beq_iff_eq, eq_comm (a := r)]
    omega
  · have hb := hs.bounded
    rw [(hperm.map _).sum_nat, List.map_cons, List.sum_cons, stepsLeft_out hr] at hb
    dsimp only
    omega

theorem Flight.OnTime.step {t : Flight} (hs : s.OnTime dests steps)
    (h : s.step 5 k = .ok t) : t.OnTime dests (steps + 1) := by
  unfold Flight.step at h
  split at h
  · cases h
  · rename_i c hc
    obtain ⟨hk, hget⟩ := List.getElem?_eq_some_iff.mp hc
    have hperm : s.inFlight.Perm (c :: s.inFlight.eraseIdx k) := by
      rw [← hget]
      exact (List.getElem_cons_eraseIdx_perm hk).symm
    -- the four links a copy can be on
    cases hs.travels c (List.mem_of_getElem? hc) with
    | @inject a D ha hsub =>
      rw [if_neg (by dsimp only; omega)] at h
      cases h
      have hswitch : 2 * 5 + a - 2 * 5 = a := by omega
      rw [hswitch]
      exact hs.send hperm (refines_of_from_controller ha hsub)
    | @up a D ha hsub =>
      cases h
      exact hs.send hperm (refines_of_central ha hsub)
    | @down r hr =>
      rw [if_neg (by dsimp only; omega)] at h
      cases h
      have hswitch : 2 * 5 + r - 2 * 5 = r := by omega
      rw [hswitch]
      exact hs.send hperm (refines_of_from_central hr)
    | @out r hr =>
      rw [if_pos (by dsimp only; omega)] at h
      cases h
      have hnode : 5 + r - 5 = r := by omega
      rw [hnode]
      exact hs.deliver hr hperm

/-- With five controllers every message is delivered. -/
theorem exactlyOnce_five : ExactlyOnce 5 := by
  intro a ha dests hsub
  refine ⟨2 + 2 * dests.card, fun ks s hrun => ?_⟩
  have hinv : s.OnTime dests ks.length := by
    generalize hinject : Flight.inject 5 a dests = start at hrun
    induction hrun with
    | refl =>
      subst hinject
      refine ⟨?_, ?_, ?_⟩
      · intro c hc
        rw [List.mem_singleton.mp hc]
        exact .inject ha hsub
      · simp [Flight.inject, List.countP_cons]
      · simp [Flight.inject, stepsLeft_inject ha]
    | snoc _ hl ih =>
      rw [List.length_append]
      exact ih.step hl.2
  refine ⟨by have := hinv.bounded; omega, fun hdone d => ?_⟩
  have hd := hinv.once d
  rw [(Flight.stopped_iff 5 s).mp hdone] at hd
  exact hd

/-! ## Other numbers of controllers -/

theorem Flight.step_send (hc : s.inFlight[k]? = some c)
    (hswitch : ¬ c.link.2 < 2 * n) : Within (Flight.step n) Anytime s k
      { s with inFlight := s.inFlight.eraseIdx k ++ operateSwitch n (c.link.2 - 2 * n) c } := by
  refine ⟨trivial, ?_⟩
  unfold Flight.step
  rw [hc]
  dsimp only
  rw [if_neg hswitch]

/-- A message to the sender itself reaches the central switch. -/
theorem runs_to_central (ha : a < n) (h5 : a < 5) :
    Runs (Within (Flight.step n) Anytime) (.inject n a {a}) [0]
      ⟨[⟨(2 * n + a, 3 * n), {a}⟩], []⟩ := by
  have h := Flight.step_send (n := n) (s := .inject n a {a}) (k := 0) rfl (by dsimp only; omega)
  have hswitch : 2 * n + a - 2 * n = a := by omega
  rw [hswitch, operateSwitch_from_controller ha (Finset.singleton_nonempty a) (by simpa using ha),
    if_neg (by omega)] at h
  exact .single h

/-- With fewer than five controllers the central switch drops it. -/
theorem runs_dropped (ha : a < n) (hn : n < 5) :
    Runs (Within (Flight.step n) Anytime) (.inject n a {a}) [0, 0] ⟨[], []⟩ := by
  have h := Flight.step_send (n := n) (s := ⟨[⟨(2 * n + a, 3 * n), {a}⟩], []⟩) (k := 0) rfl
    (by dsimp only; omega)
  have hswitch : 3 * n - 2 * n = n := by omega
  rw [hswitch, operateSwitch_central ha] at h
  have hnone : ((List.range n).filter fun r => decide (r ∈ ({a} : Finset ℕ) ∧ ¬ (n < 5 ∧ a = r))) =
      [] := by
    rw [List.filter_eq_nil_iff]
    intro r _ h
    obtain ⟨hmem, hne⟩ := of_decide_eq_true h
    exact hne ⟨hn, (Finset.mem_singleton.mp hmem).symm⟩
  rw [hnone] at h
  exact (runs_to_central ha (by omega)).append (.single h)

/-- A copy that a switch is to send on may be taken next. -/
theorem Flight.exists_send (hc : c ∈ s.inFlight)
    (hswitch : ¬ c.link.2 < 2 * n) : ∃ k t, Within (Flight.step n) Anytime s k t ∧
      ∀ c' ∈ operateSwitch n (c.link.2 - 2 * n) c, c' ∈ t.inFlight := by
  obtain ⟨k, hk⟩ := List.mem_iff_getElem?.mp hc
  exact ⟨k, _, Flight.step_send hk hswitch, fun c' hc' => List.mem_append_right _ hc'⟩

/-- Between the central switch and a router from 5 on a copy goes up and down. -/
theorem Flight.exists_reflected (hr : r < n) (h5 : 5 ≤ r)
    (hs : ⟨(2 * n + r, 3 * n), {r}⟩ ∈ s.inFlight) :
    ∃ ks t, Runs (Within (Flight.step n) Anytime) s ks t ∧ ks.length = 2 ∧
      ⟨(2 * n + r, 3 * n), {r}⟩ ∈ t.inFlight := by
  obtain ⟨k, t, hstep, ht⟩ := Flight.exists_send (n := n) hs (by dsimp only; omega)
  have hcentral : 3 * n - 2 * n = n := by omega
  have hdown : ⟨(3 * n, 2 * n + r), {r}⟩ ∈ t.inFlight := by
    apply ht
    rw [hcentral, operateSwitch_central hr, List.mem_map]
    refine ⟨r, List.mem_filter.mpr ⟨List.mem_range.mpr hr, ?_⟩, rfl⟩
    exact decide_eq_true ⟨Finset.mem_singleton_self r, by omega⟩
  obtain ⟨k', u, hstep', hu⟩ := Flight.exists_send (n := n) hdown (by dsimp only; omega)
  have hrouter : 2 * n + r - 2 * n = r := by omega
  refine ⟨[k] ++ [k'], u, (Runs.single hstep).append (.single hstep'), rfl, hu _ ?_⟩
  dsimp only
  rw [hrouter, operateSwitch_from_central hr, if_pos h5]
  exact List.mem_cons_of_mem _ (List.mem_singleton_self _)

/-- With more than five controllers a message of controller 5 to itself is forwarded forever. -/
theorem exists_runs_forever (hn : 5 < n) (m : ℕ) :
    ∃ ks s, Runs (Within (Flight.step n) Anytime) (.inject n 5 {5}) ks s ∧ m ≤ ks.length ∧
      ⟨(2 * n + 5, 3 * n), {5}⟩ ∈ s.inFlight := by
  induction m with
  | zero =>
    obtain ⟨k, t, hstep, ht⟩ := Flight.exists_send (n := n) (s := .inject n 5 {5})
      (List.mem_singleton_self _) (by dsimp only; omega)
    have hrouter : 2 * n + 5 - 2 * n = 5 := by omega
    refine ⟨[k], t, .single hstep, Nat.zero_le _, ht _ ?_⟩
    rw [hrouter, operateSwitch_from_controller hn (Finset.singleton_nonempty 5) (by simpa using hn)]
    exact List.mem_append_right _ (List.mem_singleton_self _)
  | succ m ih =>
    obtain ⟨ks, s, hrun, hlen, hs⟩ := ih
    obtain ⟨ks', t, hrun', hlen', ht⟩ := Flight.exists_reflected hn (le_refl 5) hs
    refine ⟨ks ++ ks', t, hrun.append hrun', ?_, ht⟩
    rw [List.length_append]
    omega

/-- **Messages are delivered exactly once precisely with five controllers.** -/
theorem exactly_once_iff (hn : 2 ≤ n) : ExactlyOnce n ↔ n = 5 := by
  constructor
  · intro h
    rcases lt_trichotomy n 5 with hlt | rfl | hgt
    · -- controller 0 does not get its own message
      obtain ⟨bound, hruns⟩ := h 0 (by omega) {0} (by simp; omega)
      have := (hruns _ _ (runs_dropped (by omega) hlt)).2
        ((Flight.stopped_iff n _).mpr rfl) 0
      simp at this
    · rfl
    · obtain ⟨bound, hruns⟩ := h 5 hgt {5} (by simpa using hgt)
      obtain ⟨ks, s, hrun, hlen, -⟩ := exists_runs_forever hgt (bound + 1)
      have := (hruns _ _ hrun).1
      omega
  · rintro rfl
    exact exactlyOnce_five

theorem exactly_once_iff_four_six : ¬ ExactlyOnce 4 ∧ ExactlyOnce 5 ∧ ¬ ExactlyOnce 6 := by
  refine ⟨fun h => ?_, (exactly_once_iff (by omega)).mpr rfl, fun h => ?_⟩
  · have := (exactly_once_iff (by omega)).mp h
    omega
  · have := (exactly_once_iff (by omega)).mp h
    omega

/-- With two controllers a message of controller 0 to itself is lost at the central switch; with
six, controller 5 has runs of every length. -/
theorem own_message_dropped_or_reflected :
    Runs (Within (Flight.step 2) Anytime) (.inject 2 0 {0}) [0, 0] ⟨[], []⟩ ∧
      ∀ m, ∃ ks s, Runs (Within (Flight.step 6) Anytime) (.inject 6 5 {5}) ks s ∧
        m ≤ ks.length := by
  refine ⟨runs_dropped (by omega) (by omega), fun m => ?_⟩
  obtain ⟨ks, s, hrun, hlen, -⟩ := exists_runs_forever (n := 6) (by omega) m
  exact ⟨ks, s, hrun, hlen⟩
