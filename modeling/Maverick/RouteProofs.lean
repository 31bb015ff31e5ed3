import Maverick.NetdevProofs

/-! # Routes — the longest prefix wins

Masks are kept in network byte order and compared as the integers a little-endian machine makes of
them. Among masks of contiguous prefixes that is the order of the prefix lengths, so the loop of
`route_lookup` ends at the longest prefix, in the last slot among equals. -/

namespace MavNet

open MavChecksum List

/-- The mask of a prefix, in network byte order. -/
def prefixMask (len : Fin 33) : UInt32 := htonl (UInt32.ofNat (2 ^ 32 - 2 ^ (32 - len.val)))

theorem prefixMask_le : ∀ p q : Fin 33, prefixMask p ≤ prefixMask q ↔ p ≤ q := by
  decide +kernel

/-- The arguments of a call of `route_add` for a network. -/
structure Route where
  dst : UInt32
  len : Fin 33
  gateway : UInt32
  dev : Nat
  canonical : dst &&& prefixMask len = dst

/-- The address starts with the network's prefix. -/
def Route.Matches (r : Route) (dst : UInt32) : Prop :=
  dst &&& prefixMask r.len = r.dst &&& prefixMask r.len

def routeInit (n : Net) : Net :=
  { n with routes := n.routes.map fun r => { r with valid := false } }

def routeAdd (n : Net) (dst mask gateway : UInt32) (dev : Nat) : Int × Net :=
  match n.routes.findIdx? fun r => !r.valid with
  | some i =>
    let flags := if gateway ≠ 0 then routeFlagGateway else 0
    (0, { n with routes := n.routes.set i ⟨dst, mask, gateway, dev, flags, true⟩ })
  | none => (-1, n)

def routesAdded (n : Net) (rs : List Route) : Net :=
  rs.foldl (fun n r => (routeAdd n r.dst (prefixMask r.len) r.gateway r.dev).2) n

def Route.result (r : Route) : RouteResult :=
  ⟨r.dev, r.gateway, if r.gateway ≠ 0 then routeFlagGateway else 0⟩

def Route.entry (r : Route) : RouteEntry :=
  ⟨r.dst, prefixMask r.len, r.gateway, r.dev, r.result.flags, true⟩

/-! ## The table -/

/-- The calls fill the slots from the first on, until there are none left. -/
theorem routesAdded_eq (rs : List Route) : ∀ (n : Net) (es : List Route) (spare : List RouteEntry),
    n.routes = es.map Route.entry ++ spare → (∀ r ∈ spare, r.valid = false) →
      ∃ spare', (∀ r ∈ spare', r.valid = false) ∧ routesAdded n rs =
        { n with routes := (es ++ rs.take spare.length).map Route.entry ++ spare' } := by
  induction rs with
  | nil =>
    intro n es spare hn hspare
    refine ⟨spare, hspare, ?_⟩
    rw [take_nil, append_nil, ← hn]
    rfl
  | cons r rs ih =>
    intro n es spare hn hspare
    have hes : (es.map Route.entry).findIdx? (fun r => !r.valid) = none := by
      simp [Route.entry]
    have hadd : routesAdded n (r :: rs) =
        routesAdded (routeAdd n r.dst (prefixMask r.len) r.gateway r.dev).2 rs := rfl
    rw [hadd, routeAdd, hn, findIdx?_append, hes]
    cases spare with
    | nil =>
      obtain ⟨spare', hspare', h⟩ := ih n es [] hn hspare
      exact ⟨spare', hspare', h⟩
    | cons b spare =>
      obtain ⟨hb, hspare⟩ := forall_mem_cons.mp hspare
      have hfirst : (b :: spare).findIdx? (fun r => !r.valid) = some 0 := by simp [findIdx?_cons, hb]
      rw [hfirst]
      obtain ⟨spare', hspare', h⟩ := ih { n with routes := (es ++ [r]).map Route.entry ++ spare }
        (es ++ [r]) spare rfl hspare
      refine ⟨spare', hspare', ?_⟩
      rw [append_assoc] at h
      refine Eq.trans (congrArg (routesAdded · rs) ?_) h
      simp [Route.entry, Route.result, set_append_right]

/-! ## The search -/

/-- What the search has found among the slots it has seen. -/
def Longest (dst : UInt32) (rs : List Route) : Option Route → Prop
  | none => ∀ r ∈ rs, ¬ r.Matches dst
  | some r => ∃ before after, rs = before ++ r :: after ∧ r.Matches dst ∧
      (∀ b ∈ before, b.Matches dst → b.len ≤ r.len) ∧ ∀ b ∈ after, b.Matches dst → b.len < r.len

variable {dst : UInt32} {seen : List Route} {best : Option Route} {r : Route}

theorem Longest.mem_le (h : Longest dst seen best) {b : Route} (hb : b ∈ seen)
    (hm : b.Matches dst) : ∃ r, best = some r ∧ b.len ≤ r.len := by
  cases best with
  | none => exact absurd hm (h b hb)
  | some r =>
    obtain ⟨before, after, rfl, -, hbefore, hafter⟩ := h
    rcases mem_append.mp hb with hb | hb
    · exact ⟨r, rfl, hbefore b hb hm⟩
    · rcases mem_cons.mp hb with rfl | hb
      · exact ⟨b, rfl, Nat.le_refl _⟩
      · exact ⟨r, rfl, Nat.le_of_lt (hafter b hb hm)⟩

theorem Longest.take (h : Longest dst seen best) (hm : r.Matches dst)
    (hle : ∀ b, best = some b → b.len ≤ r.len) : Longest dst (seen ++ [r]) (some r) := by
  refine ⟨seen, [], rfl, hm, fun b hb hbm => ?_, nofun⟩
  obtain ⟨q, hq, hbq⟩ := h.mem_le hb hbm
  exact Nat.le_trans hbq (hle q hq)

theorem Longest.skip (h : Longest dst seen best)
    (hr : r.Matches dst → ∃ b, best = some b ∧ r.len < b.len) : Longest dst (seen ++ [r]) best := by
  cases best with
  | none =>
    exact forall_mem_append.mpr ⟨h, forall_mem_singleton.mpr fun hm => nomatch (hr hm).choose_spec.1⟩
  | some q =>
    obtain ⟨before, after, rfl, hm, hbefore, hafter⟩ := h
    refine ⟨before, after ++ [r], append_assoc .., hm, hbefore, ?_⟩
    refine forall_mem_append.mpr ⟨hafter, forall_mem_singleton.mpr fun hrm => ?_⟩
    obtain ⟨b, hb, hlt⟩ := hr hrm
    rw [Option.some.inj hb]
    exact hlt

def bestMask : Option Route → UInt32
  | none => 0
  | some r => prefixMask r.len

theorem bestMask_le : bestMask best ≤ prefixMask r.len ↔ ∀ b, best = some b → b.len ≤ r.len := by
  cases best with
  | none => exact ⟨nofun, fun _ => UInt32.zero_le⟩
  | some b => exact (prefixMask_le ..).trans ⟨fun h _ hb => Option.some.inj hb ▸ h, fun h => h b rfl⟩

/-- **SEARCH**: the loop of `route_lookup` over the slots in use and the empty ones. -/
theorem bestMatch_longest (dst : UInt32) {spare : List RouteEntry} (hspare : ∀ r ∈ spare, r.valid = false)
    (rs : List Route) : ∀ (seen : List Route) (best : Option Route), Longest dst seen best →
      ∃ best', bestMatch dst (rs.map Route.entry ++ spare) (bestMask best) (best.map Route.entry) =
        best'.map Route.entry ∧ Longest dst (seen ++ rs) best' := by
  induction rs with
  | nil =>
    intro seen best h
    refine ⟨best, ?_, by rwa [append_nil]⟩
    induction spare with
    | nil => rfl
    | cons b spare ih =>
      obtain ⟨hb, hspare⟩ := forall_mem_cons.mp hspare
      rw [map_nil, nil_append, bestMatch, if_neg (by rw [hb]; nofun)]
      exact ih hspare
  | cons r rs ih =>
    intro seen best h
    rw [map_cons, cons_append, bestMatch, append_cons seen]
    have hmatch : dst &&& prefixMask r.len = r.dst ↔ r.Matches dst := by
      rw [Route.Matches, r.canonical]
    by_cases hr : r.Matches dst ∧ ∀ b, best = some b → b.len ≤ r.len
    · rw [if_pos ⟨rfl, hmatch.mpr hr.1, bestMask_le.mpr hr.2⟩]
      exact ih _ (some r) (h.take hr.1 hr.2)
    · rw [if_neg fun hc => hr ⟨hmatch.mp hc.2.1, bestMask_le.mp hc.2.2⟩]
      refine ih _ best (h.skip fun hm => ?_)
      by_contra hno
      exact hr ⟨hm, fun b hb => Nat.not_lt.mp fun hlt => hno ⟨b, hb, hlt⟩⟩

/-- The default device is on the list. -/
theorem netdevGetDefault_dev {n : Net} {d : Nat} (h : netdevGetDefault n = some d) :
    ∃ dev, n.dev d = some dev := by
  obtain ⟨hlt, -⟩ := findIdx?_eq_some_iff_getElem.mp h
  exact ⟨_, getElem?_eq_getElem hlt⟩

/-- **LONGEST PREFIX**: the answer is that of a matching route with the longest
    prefix, the last one among equals. Without one it is the default route, and
    without that the default device. -/
theorem longest_prefix_routed (n : Net) (hslots : n.routes.length = 16) (rs : List Route)
    (dst : UInt32) (hloop : isLoopbackAddr dst = false) (hlocal : netdevFindByIp n dst = none) :
    (∃ r, Longest dst (rs.take 16) (some r) ∧
      routeLookup (routesAdded (routeInit n) rs) dst = some r.result) ∨
    (∀ r ∈ rs.take 16, ¬ r.Matches dst) ∧
      (∀ d, n.defaultDev = some d → routeLookup (routesAdded (routeInit n) rs) dst =
        some ⟨d, n.defaultGateway, if n.defaultGateway ≠ 0 then routeFlagGateway else 0⟩) ∧
      (n.defaultDev = none →
        (routeLookup (routesAdded (routeInit n) rs) dst).map RouteResult.dev = netdevGetDefault n) := by
  obtain ⟨spare, hspare, htable⟩ := routesAdded_eq rs (routeInit n) [] (routeInit n).routes rfl
    (by simp [routeInit])
  rw [show (routeInit n).routes.length = 16 from (length_map _).trans hslots, nil_append] at htable
  obtain ⟨best, hbest, hlong⟩ := bestMatch_longest dst hspare (rs.take 16) [] none nofun
  change bestMatch dst _ 0 none = _ at hbest
  have hfind : netdevFindByIp (routesAdded (routeInit n) rs) dst = none := htable ▸ hlocal
  rw [routeLookup, hloop, if_neg nofun, hfind, htable]
  rw [hbest]
  cases best with
  | some r => exact .inl ⟨r, hlong, rfl⟩
  | none =>
    refine .inr ⟨hlong, fun d hd => ?_, fun hd => ?_⟩
    · dsimp only [routeInit]
      rw [hd]
      rfl
    dsimp only [routeInit]
    generalize map Route.entry (rs.take 16) ++ spare = table
    rw [hd, show netdevGetDefault ⟨n.devs, table, none, n.defaultGateway⟩ =
      netdevGetDefault n from rfl]
    cases hdev : netdevGetDefault n with
    | none => rfl
    | some d =>
      obtain ⟨dev, hdev⟩ := netdevGetDefault_dev hdev
      dsimp only [Option.map_none]
      rw [show Net.dev ⟨n.devs, table, none, n.defaultGateway⟩ d = n.dev d from rfl, hdev]
      dsimp only
      split
      · rfl
      · split <;> rfl

def network8 : Route := ⟨0x0000000A, 8, 0x0100000A, 0, by decide⟩

def network16 : Route := ⟨0x0000010A, 16, 0x0101010A, 1, by decide⟩

/-- 10.1.2.3 goes to the gateway of 10.1.0.0/16, though 10.0.0.0/8 comes later. -/
theorem longest_prefix_routed_sixteen :
    ∃ r, Longest 0x0302010A [network16, network8] (some r) ∧
      routeLookup (routesAdded (routeInit ⟨[], List.replicate 16 ⟨0, 0, 0, 0, 0, true⟩, none, 0⟩)
        [network16, network8]) 0x0302010A = some r.result := by
  refine (longest_prefix_routed ⟨[], List.replicate 16 ⟨0, 0, 0, 0, 0, true⟩, none, 0⟩ (by decide)
    [network16, network8] 0x0302010A (by decide) (by decide)).resolve_right fun h => ?_
  exact h.1 network16 (by simp) (by unfold Route.Matches; decide)

end MavNet
