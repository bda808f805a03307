/-
# Weighted round robin

The balancer of `ngx_http_upstream_round_robin.c`: a list of peers, each with a configured
`weight`, an `effective_weight` that failures lower and selections raise again, and a
`current_weight` by which the next peer is selected.  A request remembers in `rrp` which
peers it has tried, in words of 64 bits, and which one it is using.

The weights are `ngx_int_t`: sums of them wrap at 64 bits.
-/
import Mathlib.Data.List.GetD
import ReadingCode.SmoothWeights

namespace RoundRobin

/-! ## Peers and requests -/

/-- The `ngx_int_t` that an integer becomes. -/
def ngxInt (x : ℤ) : ℤ := x.bmod (2 ^ 64)

/-- An integer in the range of the type stays what it is. -/
theorem ngxInt_of_fits {x : ℤ} (h1 : -2 ^ 63 ≤ x) (h2 : x < 2 ^ 63) : ngxInt x = x :=
  Int.bmod_eq_of_le (by omega) (by omega)

/-- `ngx_http_upstream_rr_peer_t`, less its addresses and sessions. -/
structure Peer where
  currentWeight : ℤ
  effectiveWeight : ℤ
  weight : ℤ
  conns : ℕ
  maxConns : ℕ
  fails : ℕ
  accessed : ℤ
  checked : ℤ
  maxFails : ℕ
  failTimeout : ℤ
  down : Bool
  deriving DecidableEq, Repr

/-- `ngx_http_upstream_rr_peers_t`: the linked list of peers, with `single`. -/
structure Peers where
  single : Bool
  peer : List Peer
  deriving DecidableEq, Repr

/-- The peers of an upstream and, in `next`, its backup peers, which have none of their own. -/
structure Upstream where
  peers : Peers
  next : Option Peers
  deriving DecidableEq, Repr

/-- `ngx_http_upstream_rr_peer_data_t`: `onBackup` tells whether `rrp->peers` is `next`. -/
structure PeerData where
  onBackup : Bool
  current : Option ℕ
  tried : List (BitVec 64)
  deriving DecidableEq, Repr

/-- `rrp->tried[n] & m` -/
def isTried (tried : List (BitVec 64)) (i : ℕ) : Bool := (tried.getD (i / 64) 0).getLsbD (i % 64)

/-- `rrp->tried[n] |= m` -/
def markTried (tried : List (BitVec 64)) (i : ℕ) : List (BitVec 64) :=
  tried.modify (i / 64) (· ||| BitVec.twoPow 64 (i % 64))

/-- `ngx_http_upstream_init_round_robin_peer`: the request of a fresh connection. -/
def ngxHttpUpstreamInitRoundRobinPeer (us : Upstream) : PeerData :=
  let n := us.peers.peer.length
  let n := match us.next with
    | some next => if next.peer.length > n then next.peer.length else n
    | none => n
  let words := if n ≤ 64 then 1 else (n + 63) / 64
  { onBackup := false, current := none, tried := List.replicate words 0 }

/-! ## `ngx_http_upstream_get_peer` -/

/-- The conditions on which the loop goes on to the next peer. -/
def skipped (tried : List (BitVec 64)) (now : ℤ) (i : ℕ) (peer : Peer) : Bool :=
  isTried tried i
    || peer.down
    || (peer.maxFails ≠ 0 && peer.fails ≥ peer.maxFails
        && now - peer.checked ≤ peer.failTimeout)
    || (peer.maxConns ≠ 0 && peer.conns ≥ peer.maxConns)

/-- What a peer gains when the loop comes past it. -/
def Peer.gain (peer : Peer) : Peer :=
  { peer with
    currentWeight := ngxInt (peer.currentWeight + peer.effectiveWeight)
    effectiveWeight :=
      if peer.effectiveWeight < peer.weight then ngxInt (peer.effectiveWeight + 1)
      else peer.effectiveWeight }

/-- The variables of the loop: `best` is `p` with `best->current_weight`. -/
structure Scan where
  best : Option (ℕ × ℤ)
  total : ℤ
  deriving DecidableEq, Repr

/-- One peer that is not skipped. -/
def Scan.visit (s : Scan) (i : ℕ) (peer : Peer) : Scan where
  best := match s.best with
    | none => some (i, peer.gain.currentWeight)
    | some (p, w) =>
      if peer.gain.currentWeight > w then some (i, peer.gain.currentWeight) else some (p, w)
  total := ngxInt (s.total + peer.effectiveWeight)

/-- The loop over the peers, `i` the number of the first of those left. -/
def scan (tried : List (BitVec 64)) (now : ℤ) : ℕ → List Peer → Scan → List Peer × Scan
  | _, [], s => ([], s)
  | i, peer :: rest, s =>
    if skipped tried now i peer then
      let r := scan tried now (i + 1) rest s
      (peer :: r.1, r.2)
    else
      let r := scan tried now (i + 1) rest (s.visit i peer)
      (peer.gain :: r.1, r.2)

/-- What the selected peer pays, and its `checked`. -/
def Peer.select (now total : ℤ) (best : Peer) : Peer :=
  { best with
    currentWeight := ngxInt (best.currentWeight - total)
    checked := if now - best.checked > best.failTimeout then now else best.checked }

/-- `ngx_http_upstream_get_peer(rrp)` on the peers of `rrp`: the number of the peer that is
returned, if there is one, and the peers and `tried` as they are then. -/
def ngxHttpUpstreamGetPeer (now : ℤ) (tried : List (BitVec 64)) (peers : List Peer) :
    Option ℕ × List Peer × List (BitVec 64) :=
  let r := scan tried now 0 peers ⟨none, 0⟩
  match r.2.best with
  | none => (none, r.1, tried)
  | some (p, _) => (some p, r.1.modify p (Peer.select now r.2.total), markTried tried p)

/-! ## `ngx_http_upstream_get_round_robin_peer` -/

/-- The part of the function that looks for a peer in one list of peers. -/
def getFrom (now : ℤ) (peers : Peers) (tried : List (BitVec 64)) :
    Option ℕ × Peers × List (BitVec 64) :=
  if peers.single then
    match peers.peer with
    | [] => (none, peers, tried)
    | peer :: _ =>
      if peer.down then (none, peers, tried)
      else if peer.maxConns ≠ 0 ∧ peer.conns ≥ peer.maxConns then (none, peers, tried)
      else (some 0, peers, tried)
  else
    let r := ngxHttpUpstreamGetPeer now tried peers.peer
    (r.1, { peers with peer := r.2.1 }, r.2.2)

/-- `peer->conns++` -/
def Peer.connect (peer : Peer) : Peer := { peer with conns := peer.conns + 1 }

/-- `peer->conns++` for the peer of that number. -/
def Peers.connect (peers : Peers) (p : ℕ) : Peers :=
  { peers with peer := peers.peer.modify p Peer.connect }

/-- The function once `rrp->peers` are the backup peers. -/
def getBackupPeer (now : ℤ) (us : Upstream) (rrp : PeerData) (next : Peers) :
    Bool × Upstream × PeerData :=
  match getFrom now next rrp.tried with
  | (some p, next, tried) =>
    (true, { us with next := some (next.connect p) },
      { rrp with current := some p, tried := tried })
  | (none, next, tried) => (false, { us with next := some next }, { rrp with tried := tried })

/-- `for (i = 0; i < n; i++) rrp->tried[i] = 0;` with as many words as `next` needs -/
def clearTried (tried : List (BitVec 64)) (number : ℕ) : List (BitVec 64) :=
  List.replicate (min ((number + 63) / 64) tried.length) 0 ++ tried.drop ((number + 63) / 64)

/-- `ngx_http_upstream_get_round_robin_peer(pc, rrp)`: whether it returns `NGX_OK`. -/
def ngxHttpUpstreamGetRoundRobinPeer (now : ℤ) (us : Upstream) (rrp : PeerData) :
    Bool × Upstream × PeerData :=
  if rrp.onBackup then
    match us.next with
    | some next => getBackupPeer now us rrp next
    | none => (false, us, rrp)
  else
    match getFrom now us.peers rrp.tried with
    | (some p, peers, tried) =>
      (true, { us with peers := peers.connect p },
        { rrp with current := some p, tried := tried })
    | (none, peers, tried) =>
      match us.next with
      | none => (false, { us with peers := peers }, { rrp with tried := tried })
      | some next =>
        getBackupPeer now { us with peers := peers }
          { rrp with onBackup := true, tried := clearTried tried next.peer.length } next

/-! ## `ngx_http_upstream_free_round_robin_peer` -/

/-- `state & NGX_PEER_FAILED` -/
def Peer.fail (now : ℤ) (peer : Peer) : Peer :=
  let effectiveWeight :=
    if peer.maxFails ≠ 0 then ngxInt (peer.effectiveWeight - peer.weight / peer.maxFails)
    else peer.effectiveWeight
  { peer with
    fails := peer.fails + 1
    accessed := now
    checked := now
    effectiveWeight := if effectiveWeight < 0 then 0 else effectiveWeight }

/-- Mark the peer live if the check passed. -/
def Peer.pass (peer : Peer) : Peer :=
  if peer.accessed < peer.checked then { peer with fails := 0 } else peer

/-- `peer->conns--` -/
def Peer.disconnect (peer : Peer) : Peer := { peer with conns := peer.conns - 1 }

/-- What the function does with its peer. -/
def Peer.free (single : Bool) (now : ℤ) (failed : Bool) (peer : Peer) : Peer :=
  if single then peer.disconnect
  else if failed then (peer.fail now).disconnect
  else peer.pass.disconnect

/-- The same for the peer `rrp->current` of a list. -/
def Peers.free (now : ℤ) (failed : Bool) (current : Option ℕ) (peers : Peers) : Peers :=
  match current with
  | none => peers
  | some p => { peers with peer := peers.peer.modify p (Peer.free peers.single now failed) }

/-- `ngx_http_upstream_free_round_robin_peer(pc, rrp, state)` -/
def ngxHttpUpstreamFreeRoundRobinPeer (now : ℤ) (failed : Bool) (us : Upstream)
    (rrp : PeerData) : Upstream :=
  if rrp.onBackup then { us with next := us.next.map (Peers.free now failed rrp.current) }
  else { us with peers := us.peers.free now failed rrp.current }

/-!
# Weighted round robin: fairness and the range of the effective weights

While all peers are up and none fails, every effective weight is the configured one, and a
selection of `ngx_http_upstream_get_peer` is a smooth weighted selection with the current
weights as credits, the first of several greatest ones being picked.  So each stretch of
as many selections as the weights sum to picks every peer as often as its weight says, as
long as no sum of weights wraps.

Whatever fails, is tried or recovers, no step takes an effective weight out of
`[0, weight]`.
-/

open List

/-! ## The loop when no peer is skipped -/

/-- The peer is up: only its having been tried could have it skipped. -/
def Peer.IsUp (now : ℤ) (peer : Peer) : Prop :=
  peer.down = false
    ∧ ¬ (peer.maxFails ≠ 0 ∧ peer.fails ≥ peer.maxFails ∧ now - peer.checked ≤ peer.failTimeout)
    ∧ ¬ (peer.maxConns ≠ 0 ∧ peer.conns ≥ peer.maxConns)

instance (now : ℤ) (peer : Peer) : Decidable (peer.IsUp now) :=
  inferInstanceAs (Decidable (_ ∧ _ ∧ _))

/-- None of the peers has been tried, as for a request that has just begun. -/
def Untried (tried : List (BitVec 64)) : Prop := ∀ i, isTried tried i = false

/-- Words of zeros mark none of the peers. -/
theorem untried_replicate (words : ℕ) : Untried (replicate words 0) := by
  intro i
  simp only [isTried, getD_eq_getElem?_getD, getElem?_replicate]
  split <;> simp

variable {tried : List (BitVec 64)} {now : ℤ} {peer : Peer}

theorem skipped_of_isUp (h : peer.IsUp now)
    (htried : Untried tried) (i : ℕ) : skipped tried now i peer = false := by
  obtain ⟨h1, h2, h3⟩ := h
  simp only [skipped, htried i, h1, Bool.or_eq_false_iff, Bool.false_or, Bool.and_eq_false_iff,
    decide_eq_false_iff_not]
  constructor
  · by_contra hc
    apply h2
    simpa [and_assoc] using hc
  · by_contra hc
    apply h3
    simpa using hc

/-- `b` is the first greatest among the first `n` values of `f`, if there are any. -/
def IsBest (f : ℕ → ℤ) (n : ℕ) : Option (ℕ × ℤ) → Prop
  | none => n = 0
  | some (p, w) => p < n ∧ w = f p ∧ (∀ j < n, f j ≤ f p) ∧ ∀ j < p, f j < f p

/-- Visiting the next peer keeps `best` the first greatest one. -/
theorem IsBest.visit {f : ℕ → ℤ} {i : ℕ} {s : Scan} (h : IsBest f i s.best)
    (hf : peer.gain.currentWeight = f i) : IsBest f (i + 1) (s.visit i peer).best := by
  rcases hs : s.best with _ | ⟨p, w⟩
  · rw [hs] at h
    obtain rfl : i = 0 := h
    simp only [Scan.visit, hs, hf]
    refine ⟨by omega, rfl, fun j hj => ?_, fun j hj => by omega⟩
    obtain rfl : j = 0 := by omega
    exact le_rfl
  · rw [hs] at h
    obtain ⟨hp, rfl, hmax, hfirst⟩ := h
    simp only [Scan.visit, hs, hf]
    by_cases hgt : f i > f p
    · rw [if_pos hgt]
      refine ⟨by omega, rfl, fun j hj => ?_, fun j hj => (hmax j hj).trans_lt hgt⟩
      rcases Nat.lt_succ_iff_lt_or_eq.1 hj with hj | rfl
      · exact (hmax j hj).trans hgt.le
      · exact le_rfl
    · rw [if_neg hgt]
      refine ⟨by omega, rfl, fun j hj => ?_, hfirst⟩
      rcases Nat.lt_succ_iff_lt_or_eq.1 hj with hj | rfl
      · exact hmax j hj
      · exact not_lt.1 hgt

/-- The loop over peers that are all up: each gains, and `best` is the first greatest. -/
theorem scan_spec (htried : Untried tried) {f : ℕ → ℤ}
    (peers : List Peer) (i : ℕ) (s : Scan) (hup : ∀ p ∈ peers, p.IsUp now)
    (hf : ∀ k (hk : k < peers.length), (peers[k]).gain.currentWeight = f (i + k))
    (hs : IsBest f i s.best) (htotal : ngxInt s.total = s.total) :
    (scan tried now i peers s).1 = peers.map Peer.gain
      ∧ IsBest f (i + peers.length) (scan tried now i peers s).2.best
      ∧ (scan tried now i peers s).2.total
        = ngxInt (s.total + (peers.map Peer.effectiveWeight).sum) := by
  induction peers generalizing i s with
  | nil => exact ⟨rfl, hs, by simp [scan, htotal]⟩
  | cons peer rest ih =>
    have hskip := skipped_of_isUp (hup peer mem_cons_self) htried i
    have hhead : peer.gain.currentWeight = f i := hf 0 (Nat.succ_pos _)
    obtain ⟨h1, h2, h3⟩ := ih (i + 1) (s.visit i peer)
      (fun p hp => hup p (mem_cons_of_mem _ hp))
      (fun k hk => by
        rw [show i + 1 + k = i + (k + 1) by omega]
        exact hf (k + 1) (Nat.succ_lt_succ hk))
      (hs.visit hhead) Int.bmod_bmod
    simp only [scan, hskip, Bool.false_eq_true, if_false]
    refine ⟨by rw [h1, map_cons], ?_, ?_⟩
    · rw [length_cons, show i + (rest.length + 1) = i + 1 + rest.length by omega]
      exact h2
    · rw [h3, map_cons, sum_cons, ← add_assoc]
      exact Int.bmod_add_bmod

/-! ## A selection among peers that are up -/

/-- The peers have positive weights, and their effective weights are the configured ones. -/
def Steady (peers : List Peer) : Prop :=
  ∀ p ∈ peers, 0 < p.weight ∧ p.weight < 2 ^ 63 ∧ p.effectiveWeight = p.weight

/-- The current weights of `n` peers. -/
def credits (n : ℕ) (peers : List Peer) : Fin n → ℤ :=
  fun i => (peers.map Peer.currentWeight).getD i 0

/-- The weights of `n` peers. -/
def weights (n : ℕ) (peers : List Peer) : Fin n → ℤ :=
  fun i => (peers.map Peer.weight).getD i 0

/-- The sum of the weights, `peers->total_weight`. -/
def totalWeight (peers : List Peer) : ℤ := (peers.map Peer.weight).sum

/-- No sum that a selection among steady peers takes leaves `ngx_int_t`. -/
def Fits (peers : List Peer) : Prop :=
  totalWeight peers < 2 ^ 63 ∧ ∀ q ∈ peers, q.currentWeight + q.weight < 2 ^ 63

instance (peers : List Peer) : Decidable (Fits peers) := inferInstanceAs (Decidable (_ ∧ _))

/-- The first of several greatest ones is picked. -/
def firstPick {n : ℕ} (w d : Fin n → ℤ) (i : Fin n) : Prop := ∀ j < i, d j + w j < d i + w i

variable {n : ℕ}

/-- The first greatest one leaves no choice. -/
theorem decides_firstPick (w : Fin n → ℤ) : SmoothWeights.Decides w (firstPick w) := by
  intro d i j hi hi' hj hj'
  rcases lt_trichotomy i j with hlt | heq | hlt
  · exact absurd (hi j) (not_le.2 (hj' i hlt))
  · exact heq
  · exact absurd (hj i) (not_le.2 (hi' j hlt))

variable {peers : List Peer}

theorem credits_apply {i : Fin n} (hi : i.1 < peers.length) :
    credits n peers i = peers[i.1].currentWeight := by
  rw [credits, getD_eq_getElem _ _ (by simpa using hi), getElem_map]

theorem weights_apply {i : Fin n} (hi : i.1 < peers.length) :
    weights n peers i = peers[i.1].weight := by
  rw [weights, getD_eq_getElem _ _ (by simpa using hi), getElem_map]

theorem total_weights (hn : peers.length = n) :
    SmoothWeights.total (weights n peers) = totalWeight peers := by
  subst hn
  rw [totalWeight, ← Fin.sum_univ_getElem]
  refine Fintype.sum_equiv (finCongr (by simp)) _ _ fun i => ?_
  rw [weights_apply i.2]
  simp

/-- A change of one peer in its other fields leaves all weights as they are. -/
structure KeepsWeights (f : Peer → Peer) : Prop where
  weight : ∀ q, (f q).weight = q.weight
  effectiveWeight : ∀ q, (f q).effectiveWeight = q.effectiveWeight
  currentWeight : ∀ q, (f q).currentWeight = q.currentWeight

theorem keepsWeights_connect : KeepsWeights Peer.connect :=
  ⟨fun _ => rfl, fun _ => rfl, fun _ => rfl⟩

/-- Freeing a peer whose request has not failed keeps all weights. -/
theorem keepsWeights_free (single : Bool) (now : ℤ) :
    KeepsWeights (Peer.free single now false) := by
  have hpass : KeepsWeights Peer.pass := by
    constructor <;> intro q <;> simp only [Peer.pass] <;> split <;> rfl
  constructor <;> intro q <;> cases single
  · exact hpass.weight q
  · rfl
  · exact hpass.effectiveWeight q
  · rfl
  · exact hpass.currentWeight q
  · rfl

variable {f : Peer → Peer}

theorem map_modify_of_eq {g : Peer → ℤ} (h : ∀ q, g (f q) = g q)
    (peers : List Peer) (p : ℕ) : (peers.modify p f).map g = peers.map g := by
  apply ext_getElem (by simp)
  intro i h1 h2
  rw [getElem_map, getElem_map, getElem_modify]
  split
  · exact h _
  · rfl

theorem KeepsWeights.weights_eq (h : KeepsWeights f) (n : ℕ)
    (peers : List Peer) (p : ℕ) : weights n (peers.modify p f) = weights n peers := by
  funext i
  rw [weights, map_modify_of_eq h.weight, weights]

theorem KeepsWeights.credits_eq (h : KeepsWeights f) (n : ℕ)
    (peers : List Peer) (p : ℕ) : credits n (peers.modify p f) = credits n peers := by
  funext i
  rw [credits, map_modify_of_eq h.currentWeight, credits]

/-- What holds of every peer holds of every peer once one has been changed, if the change
keeps it. -/
theorem forall_mem_modify {P : Peer → Prop} (p : ℕ)
    (h : ∀ q ∈ peers, P q) (hf : ∀ q, P q → P (f q)) : ∀ q ∈ peers.modify p f, P q := by
  intro q hq
  obtain ⟨i, hi, rfl⟩ := getElem_of_mem hq
  have hi' : i < peers.length := by simpa using hi
  rw [getElem_modify]
  split
  · exact hf _ (h _ (getElem_mem hi'))
  · exact h _ (getElem_mem hi')

theorem KeepsWeights.steady (h : KeepsWeights f)
    (hs : Steady peers) (p : ℕ) : Steady (peers.modify p f) :=
  forall_mem_modify p hs fun q hq => by rw [h.weight, h.effectiveWeight]; exact hq

/-- **A selection among peers that are up** is a smooth weighted selection of the first
greatest one, if no sum wraps, and the peers are steady afterwards. -/
theorem getPeer_spec {tried' : List (BitVec 64)} {next : List Peer} {p : ℕ}
    (hup : ∀ q ∈ peers, q.IsUp now) (htried : Untried tried) (hs : Steady peers) (hfit : Fits peers)
    (hd : SmoothWeights.Balanced (weights peers.length peers) (credits peers.length peers))
    (h : ngxHttpUpstreamGetPeer now tried peers = (some p, next, tried')) :
    ∃ i : Fin peers.length, i.1 = p ∧ SmoothWeights.IsPick (weights _ peers) (credits _ peers) i
      ∧ firstPick (weights _ peers) (credits _ peers) i
      ∧ credits _ next = SmoothWeights.pay (weights _ peers) (credits _ peers) i
      ∧ weights peers.length next = weights _ peers ∧ next.length = peers.length ∧ Steady next := by
  set f : ℕ → ℤ := fun k => (peers.map fun q => q.currentWeight + q.weight).getD k 0 with hf
  have hfk : ∀ k (hk : k < peers.length), f k = peers[k].currentWeight + peers[k].weight := by
    intro k hk
    rw [hf]
    simp only [getD_eq_getElem?_getD, getElem?_map, getElem?_eq_getElem hk]
    rfl
  have hgain : ∀ k (hk : k < peers.length), (peers[k]).gain.currentWeight = f k := by
    intro k hk
    obtain ⟨hpos, -, heq⟩ := hs _ (getElem_mem hk)
    have hlow : -totalWeight peers < peers[k].currentWeight := by
      rw [← total_weights rfl, ← credits_apply (i := ⟨k, hk⟩) hk]
      exact hd.lower _
    have hsum := hfit.1
    have hhigh := hfit.2 _ (getElem_mem hk)
    simp only [Peer.gain, heq, hfk k hk]
    exact ngxInt_of_fits (by omega) hhigh
  obtain ⟨h1, h2, h3⟩ := scan_spec htried peers 0 ⟨none, 0⟩ hup
    (fun k hk => by rw [zero_add]; exact hgain k hk) rfl rfl
  have hmapw : peers.map Peer.effectiveWeight = peers.map Peer.weight :=
    map_congr_left fun q hq => (hs q hq).2.2
  have hnonneg : 0 ≤ (peers.map Peer.weight).sum :=
    sum_nonneg fun x hx => by
      obtain ⟨q, hq, rfl⟩ := mem_map.1 hx
      exact (hs q hq).1.le
  rw [hmapw, zero_add, ngxInt_of_fits (by omega) (by exact hfit.1)] at h3
  simp only [ngxHttpUpstreamGetPeer] at h
  rcases hb : (scan tried now 0 peers ⟨none, 0⟩).2.best with _ | ⟨p', w⟩
  · rw [hb] at h
    simp at h
  · rw [hb, h1, h3] at h
    rw [hb, zero_add] at h2
    obtain ⟨hp, -, hmax, hfirst⟩ := h2
    simp only [Prod.mk.injEq, Option.some.injEq] at h
    obtain ⟨rfl, rfl, -⟩ := h
    have hval : ∀ j : Fin peers.length, credits _ peers j + weights _ peers j = f j := by
      intro j
      rw [credits_apply j.2, weights_apply j.2, hfk j j.2]
    have hkeepw : ((peers.map Peer.gain).modify p'
        (Peer.select now (peers.map Peer.weight).sum)).map Peer.weight = peers.map Peer.weight := by
      rw [map_modify_of_eq (f := Peer.select now _) fun _ => rfl, map_map]
      rfl
    have hpick : SmoothWeights.IsPick (weights _ peers) (credits _ peers) ⟨p', hp⟩ := by
      intro j
      rw [hval, hval]
      exact hmax j j.2
    refine ⟨⟨p', hp⟩, rfl, hpick, fun j hj => ?_, ?_, ?_, by simp, ?_⟩
    · rw [hval, hval]
      exact hfirst j hj
    · funext j
      rw [credits_apply (by simp), getElem_modify, SmoothWeights.pay, hval,
        total_weights rfl, ← hgain j j.2]
      by_cases hj : p' = j.1
      · obtain rfl : j = ⟨p', hp⟩ := Fin.ext hj.symm
        have hpos := hpick.pos (fun k => by
          rw [weights_apply k.2]
          exact (hs _ (getElem_mem k.2)).1) hd.sum
        have hhigh := hfit.2 _ (getElem_mem hp)
        have hsum := hfit.1
        rw [hval, hfk p' hp] at hpos
        rw [if_pos rfl, if_pos rfl, getElem_map, hgain p' hp, hfk p' hp]
        simp only [Peer.select, hgain p' hp, hfk p' hp]
        exact ngxInt_of_fits (by rw [totalWeight] at hsum; omega) (by omega)
      · rw [if_neg hj, if_neg fun h => hj (congrArg Fin.val h).symm, getElem_map, sub_zero]
    · funext j
      rw [weights, hkeepw, weights]
    · refine forall_mem_modify p' (fun q hq => ?_) fun q hq => hq
      obtain ⟨q', hq', rfl⟩ := mem_map.1 hq
      obtain ⟨hpos, hlt, heq⟩ := hs q' hq'
      refine ⟨hpos, hlt, ?_⟩
      simp only [Peer.gain, heq, lt_irrefl, if_false]

/-- A selection among peers that are up finds one. -/
theorem getPeer_isSome (hup : ∀ q ∈ peers, q.IsUp now) (htried : Untried tried) (hne : peers ≠ []) :
    (ngxHttpUpstreamGetPeer now tried peers).1.isSome := by
  obtain ⟨-, h2, -⟩ := scan_spec htried (f := fun k => (peers.map Peer.gain |>.map
    Peer.currentWeight).getD k 0) peers 0 ⟨none, 0⟩ hup (fun k hk => by
      simp only [zero_add, getD_eq_getElem?_getD, getElem?_map, getElem?_eq_getElem hk]
      rfl) rfl rfl
  simp only [ngxHttpUpstreamGetPeer]
  rcases hb : (scan tried now 0 peers ⟨none, 0⟩).2.best with _ | ⟨p, w⟩
  · rw [hb, zero_add] at h2
    exact absurd (length_eq_zero_iff.1 h2) hne
  · rfl

/-! ## Runs without failures -/

/-- Requests that have just begun select the peers in the list, one after another, while
connections are freed without failure in between; at each selection all peers are up, and
the condition holds of them. -/
inductive Selections (Ok : List Peer → Prop) : List Peer → List ℕ → List Peer → Prop
  | nil (peers : List Peer) : Selections Ok peers [] peers
  | get {now : ℤ} {tried tried' : List (BitVec 64)} {peers next last : List Peer} {p : ℕ}
      {ps : List ℕ} (hok : Ok peers) (hup : ∀ q ∈ peers, q.IsUp now) (htried : Untried tried)
      (hget : ngxHttpUpstreamGetPeer now tried peers = (some p, next, tried'))
      (rest : Selections Ok (next.modify p Peer.connect) ps last) :
      Selections Ok peers (p :: ps) last
  | free {peers last : List Peer} {ps : List ℕ} (single : Bool) (now : ℤ) (p : ℕ)
      (rest : Selections Ok (peers.modify p (Peer.free single now false)) ps last) :
      Selections Ok peers ps last

theorem Steady.weights_pos (hs : Steady peers) (hn : peers.length = n) (j : Fin n) :
    0 < weights n peers j := by
  rw [weights_apply (hn ▸ j.2)]
  exact (hs _ (getElem_mem _)).1

/-- A run without failures is a lot of smooth weighted selections, if no sum wraps. -/
theorem Selections.selects {last : List Peer} {ps : List ℕ}
    (h : Selections Fits peers ps last) (hn : peers.length = n) (hs : Steady peers)
    (hd : SmoothWeights.Balanced (weights n peers) (credits n peers)) :
    ∃ is : List (Fin n), ps = is.map Fin.val
      ∧ SmoothWeights.Selects (weights n peers) (firstPick (weights n peers)) (credits n peers) is
        (credits n last) ∧ weights n last = weights n peers ∧ last.length = n ∧ Steady last := by
  induction h with
  | nil peers => exact ⟨[], rfl, .nil _, rfl, hn, hs⟩
  | @get now tried tried' peers next last p ps hfit hup htried hget _ ih =>
    subst hn
    obtain ⟨i, rfl, hpick, hfirst, hcredits, hweights, hlen, hsteady⟩ :=
      getPeer_spec hup htried hs hfit hd hget
    have hstep := hpick.balanced (hs.weights_pos rfl) hd
    rw [keepsWeights_connect.weights_eq, hweights, keepsWeights_connect.credits_eq, hcredits] at ih
    obtain ⟨is, rfl, hsel, hw, hlast⟩ :=
      ih (by simpa using hlen) (keepsWeights_connect.steady hsteady i.1) hstep
    exact ⟨i :: is, rfl, .cons hpick hfirst hsel, hw, hlast⟩
  | @free peers last ps single now p _ ih =>
    have hkeep := keepsWeights_free single now
    rw [hkeep.weights_eq, hkeep.credits_eq] at ih
    obtain ⟨is, rfl, hsel, hw, hlast⟩ := ih (by simpa using hn) (hkeep.steady hs p) hd
    exact ⟨is, rfl, hsel, hw, hlast⟩

variable {last : List Peer} {ps : List ℕ}

theorem credits_of_zero (hzero : ∀ q ∈ peers, q.currentWeight = 0) :
    credits peers.length peers = 0 := by
  funext i
  rw [credits_apply i.2]
  exact hzero _ (getElem_mem i.2)

/-- Credits of zero are balanced. -/
theorem Steady.balanced (hs : Steady peers) :
    SmoothWeights.Balanced (weights peers.length peers) 0 :=
  ⟨by simp, fun j => by
    have := Finset.sum_pos (fun k _ => hs.weights_pos rfl k) ⟨j, Finset.mem_univ j⟩
    simpa [SmoothWeights.total] using this⟩

/-- **Each stretch of as many selections as the weights sum to is fair**, wherever it begins
in a run that starts with all current weights zero: it selects every peer as often as its
weight says, and leaves the current weights as they were. -/
theorem selections_fair {mid : List Peer} {qs : List ℕ} (hs : Steady peers)
    (hzero : ∀ q ∈ peers, q.currentWeight = 0) (h : Selections Fits peers ps mid)
    (h' : Selections Fits mid qs last) (hlen : (qs.length : ℤ) = totalWeight peers) :
    (∀ i (hi : i < peers.length), (qs.count i : ℤ) = (peers[i]).weight)
      ∧ last.map Peer.currentWeight = mid.map Peer.currentWeight
      ∧ (totalWeight peers ∣ ps.length → ∀ q ∈ last, q.currentWeight = 0) := by
  have hstart := credits_of_zero hzero
  have hpos := hs.weights_pos rfl
  obtain ⟨is, rfl, hsel, hw, hmid, hsm⟩ := h.selects rfl hs (hstart ▸ hs.balanced)
  rw [hstart] at hsel
  obtain ⟨js, rfl, hsel', -, hlast, -⟩ := h'.selects hmid hsm
    (hw ▸ hsel.balanced hpos hs.balanced)
  rw [hw] at hsel'
  obtain ⟨hcount, hback⟩ := hsel.window (decides_firstPick _) hsel' hpos
    (by rw [total_weights rfl]; simpa using hlen)
  have hcredit : ∀ i (h1 : i < last.length) (h2 : i < mid.length),
      (last[i]).currentWeight = (mid[i]).currentWeight := by
    intro i h1 h2
    have := congrFun hback ⟨i, by omega⟩
    rwa [credits_apply h1, credits_apply h2] at this
  refine ⟨fun i hi => ?_, ?_, fun hdvd q hq => ?_⟩
  · have := hcount ⟨i, hi⟩
    rw [weights_apply hi] at this
    rw [← this, List.count, countP_map]
    congr 1
    apply countP_congr
    intro j _
    simp [Fin.ext_iff]
  · apply ext_getElem (by simp [hlast, hmid])
    intro i h1 h2
    rw [getElem_map, getElem_map]
    exact hcredit i (by simpa using h1) (by simpa using h2)
  · obtain ⟨i, hi, rfl⟩ := getElem_of_mem hq
    have hmid0 := hsel.rounds hpos (by rw [total_weights rfl]; simpa using hdvd)
    rw [hcredit i hi (by omega)]
    have := congrFun hmid0 ⟨i, by omega⟩
    rwa [credits_apply (by omega)] at this

/-- The sums fit as long as nobody gains too much credit. -/
theorem Steady.fits (hs : Steady peers)
    (hb : SmoothWeights.Bounded (weights peers.length peers) (credits peers.length peers))
    (hsmall : SmoothWeights.total (weights peers.length peers) * harmonic peers.length < 2 ^ 63) :
    Fits peers := by
  have hgained : ∀ i (hi : i < peers.length),
    peers[i].currentWeight + peers[i].weight < 2 ^ 63 := by
    intro i hi
    have hle := hb.gained (hs.weights_pos rfl) ⟨i, hi⟩
    rw [Fintype.card_fin, credits_apply hi, weights_apply hi] at hle
    exact_mod_cast hle.trans_lt hsmall
  refine ⟨?_, fun q hq => ?_⟩
  · rw [← total_weights rfl]
    have hnonneg : 0 ≤ SmoothWeights.total (weights peers.length peers) :=
      Finset.sum_nonneg fun j _ => (hs.weights_pos rfl j).le
    cases hn : peers.length with
    | zero =>
      rw [total_weights hn, length_eq_zero_iff.1 hn]
      decide
    | succ n =>
      rw [hn] at hsmall hnonneg
      have hone := SmoothWeights.harmonic_mono (Nat.le_add_left 1 n)
      rw [harmonic_succ, harmonic_zero, Nat.cast_one, inv_one, zero_add] at hone
      have hle := mul_le_mul_of_nonneg_left hone (Int.cast_nonneg (R := ℚ) hnonneg)
      rw [mul_one] at hle
      exact_mod_cast hle.trans_lt hsmall
  · obtain ⟨i, hi, rfl⟩ := getElem_of_mem hq
    exact hgained i hi

/-- No sum wraps in a run of peers whose weights are small enough together. -/
theorem Selections.fits (h : Selections (fun _ => True) peers ps last) (hn : peers.length = n)
    (hs : Steady peers) (hd : SmoothWeights.Balanced (weights n peers) (credits n peers))
    (hb : SmoothWeights.Bounded (weights n peers) (credits n peers))
    (hsmall : SmoothWeights.total (weights n peers) * harmonic n < 2 ^ 63) :
    Selections Fits peers ps last := by
  induction h with
  | nil peers => exact .nil peers
  | @get now tried tried' peers next last p ps _ hup htried hget _ ih =>
    subst hn
    have hfit := hs.fits hb hsmall
    have hpos := hs.weights_pos rfl
    obtain ⟨i, rfl, hpick, -, hcredits, hweights, hlen, hsteady⟩ :=
      getPeer_spec hup htried hs hfit hd hget
    rw [keepsWeights_connect.weights_eq, hweights, keepsWeights_connect.credits_eq, hcredits] at ih
    exact .get hfit hup htried hget (ih (by simpa using hlen)
      (keepsWeights_connect.steady hsteady i.1) (hpick.balanced hpos hd) (hpick.bounded hpos hb)
      hsmall)
  | @free peers last ps single now p _ ih =>
    have hkeep := keepsWeights_free single now
    rw [hkeep.weights_eq, hkeep.credits_eq] at ih
    exact .free single now p (ih (by simpa using hn) (hkeep.steady hs p) hd hb hsmall)

/-- The weights are small enough if their sum times the harmonic number of the peers is. -/
theorem selections_fit (hs : Steady peers) (hzero : ∀ q ∈ peers, q.currentWeight = 0)
    (hsmall : totalWeight peers * harmonic peers.length < 2 ^ 63)
    (h : Selections (fun _ => True) peers ps last) : Selections Fits peers ps last := by
  have hstart := credits_of_zero hzero
  exact h.fits rfl hs (hstart ▸ hs.balanced)
    (hstart ▸ SmoothWeights.bounded_zero (hs.weights_pos rfl)) (by rwa [total_weights rfl])

/-! ## The range of the effective weights -/

/-- The effective weight is within `[0, weight]`, the weight being a positive `ngx_int_t`. -/
structure Peer.InRange (peer : Peer) : Prop where
  weight_pos : 0 < peer.weight
  weight_lt : peer.weight < 2 ^ 63
  nonneg : 0 ≤ peer.effectiveWeight
  le_weight : peer.effectiveWeight ≤ peer.weight

theorem Peer.InRange.gain (h : peer.InRange) : peer.gain.InRange := by
  obtain ⟨h1, hlt, h2, h3⟩ := h
  by_cases hless : peer.effectiveWeight < peer.weight
  · have hone : ngxInt (peer.effectiveWeight + 1) = peer.effectiveWeight + 1 :=
      ngxInt_of_fits (by omega) (by omega)
    refine ⟨h1, hlt, ?_, ?_⟩ <;> simp only [Peer.gain, if_pos hless, hone] <;> omega
  · refine ⟨h1, hlt, ?_, ?_⟩ <;> simp only [Peer.gain, if_neg hless] <;> omega

theorem Peer.InRange.fail (now : ℤ) (h : peer.InRange) : (peer.fail now).InRange := by
  obtain ⟨h1, hlt, h2, h3⟩ := h
  have hdiv : 0 ≤ peer.weight / (peer.maxFails : ℤ) :=
    Int.ediv_nonneg h1.le (Int.natCast_nonneg _)
  have hle : peer.weight / (peer.maxFails : ℤ) ≤ peer.weight := Int.ediv_le_self _ h1.le
  refine ⟨h1, hlt, ?_, ?_⟩ <;> simp only [Peer.fail]
  all_goals rw [ngxInt_of_fits (by omega) (by omega)]
  all_goals split <;> split <;> omega

theorem Peer.InRange.free (single : Bool) (now : ℤ) (failed : Bool)
    (h : peer.InRange) : (peer.free single now failed).InRange := by
  unfold Peer.free
  split
  · exact ⟨h.weight_pos, h.weight_lt, h.nonneg, h.le_weight⟩
  split
  · obtain ⟨h1, hlt, h2, h3⟩ := h.fail now
    exact ⟨h1, hlt, h2, h3⟩
  · unfold Peer.pass
    split <;> exact ⟨h.weight_pos, h.weight_lt, h.nonneg, h.le_weight⟩

/-- All peers of a list are in range. -/
def Peers.InRange (peers : Peers) : Prop := ∀ q ∈ peers.peer, q.InRange

/-- All peers of an upstream are in range. -/
structure Upstream.InRange (us : Upstream) : Prop where
  peers : us.peers.InRange
  next : ∀ next, us.next = some next → next.InRange

theorem inRange_scan (tried : List (BitVec 64)) (now : ℤ) (peers : List Peer) (i : ℕ) (s : Scan)
    (h : ∀ q ∈ peers, q.InRange) : ∀ q ∈ (scan tried now i peers s).1, q.InRange := by
  induction peers generalizing i s with
  | nil => exact h
  | cons peer rest ih =>
    have hrest : ∀ q ∈ rest, q.InRange := fun q hq => h q (mem_cons_of_mem _ hq)
    have hpeer := h peer mem_cons_self
    simp only [scan]
    split
    · exact forall_mem_cons.2 ⟨hpeer, ih (i + 1) s hrest⟩
    · exact forall_mem_cons.2 ⟨hpeer.gain, ih (i + 1) _ hrest⟩

theorem inRange_getPeer (now : ℤ) (tried : List (BitVec 64)) (peers : List Peer)
    (h : ∀ q ∈ peers, q.InRange) :
    ∀ q ∈ (ngxHttpUpstreamGetPeer now tried peers).2.1, q.InRange := by
  have hscan := inRange_scan tried now peers 0 ⟨none, 0⟩ h
  simp only [ngxHttpUpstreamGetPeer]
  split
  · exact hscan
  · exact forall_mem_modify _ hscan fun q hq => ⟨hq.weight_pos, hq.weight_lt, hq.nonneg,
      hq.le_weight⟩

theorem Peers.InRange.getFrom {peers : Peers} (now : ℤ) (tried : List (BitVec 64))
    (h : peers.InRange) : (getFrom now peers tried).2.1.InRange := by
  unfold RoundRobin.getFrom
  split
  · split
    · exact h
    · split
      · exact h
      · split <;> exact h
  · exact inRange_getPeer now tried peers.peer h

theorem Peers.InRange.connect {peers : Peers} (p : ℕ) (h : peers.InRange) :
    (peers.connect p).InRange :=
  forall_mem_modify p h fun _ hq => ⟨hq.weight_pos, hq.weight_lt, hq.nonneg, hq.le_weight⟩

theorem Peers.InRange.free {peers : Peers} (now : ℤ) (failed : Bool) (current : Option ℕ)
    (h : peers.InRange) : (peers.free now failed current).InRange := by
  cases current with
  | none => exact h
  | some p => exact forall_mem_modify p h fun _ hq => hq.free _ now failed

variable {us : Upstream}

theorem Upstream.InRange.getBackupPeer {next : Peers} (now : ℤ) (rrp : PeerData)
    (h : us.InRange) (hnext : next.InRange) : (getBackupPeer now us rrp next).2.1.InRange := by
  have hfrom := hnext.getFrom now rrp.tried
  unfold RoundRobin.getBackupPeer
  split
  · rename_i heq
    rw [heq] at hfrom
    exact ⟨h.peers, fun _ hn => Option.some.inj hn ▸ hfrom.connect _⟩
  · rename_i heq
    rw [heq] at hfrom
    exact ⟨h.peers, fun _ hn => Option.some.inj hn ▸ hfrom⟩

/-- A selection keeps all peers in range. -/
theorem Upstream.InRange.get (now : ℤ) (rrp : PeerData) (h : us.InRange) :
    (ngxHttpUpstreamGetRoundRobinPeer now us rrp).2.1.InRange := by
  unfold ngxHttpUpstreamGetRoundRobinPeer
  split
  · split
    · exact h.getBackupPeer now rrp (h.next _ ‹_›)
    · exact h
  · have hfrom := h.peers.getFrom now rrp.tried
    split
    · rename_i heq
      rw [heq] at hfrom
      exact ⟨hfrom.connect _, h.next⟩
    · rename_i heq
      rw [heq] at hfrom
      split
      · exact ⟨hfrom, h.next⟩
      · have hus : Upstream.InRange { us with peers := _ } := ⟨hfrom, h.next⟩
        exact hus.getBackupPeer now _ (h.next _ ‹_›)

/-- Freeing a peer keeps all peers in range, whether the request has failed or not. -/
theorem Upstream.InRange.free (now : ℤ) (failed : Bool) (rrp : PeerData)
    (h : us.InRange) : (ngxHttpUpstreamFreeRoundRobinPeer now failed us rrp).InRange := by
  unfold ngxHttpUpstreamFreeRoundRobinPeer
  split
  · refine ⟨h.peers, fun next hn => ?_⟩
    obtain ⟨next', hn', rfl⟩ := Option.map_eq_some_iff.1 hn
    exact (h.next next' hn').free now failed _
  · exact ⟨h.peers.free now failed _, h.next⟩

/-- What the balancer can get to: any requests, whatever they have tried, select peers and
free them again, having failed or not. -/
inductive Reachable (us0 : Upstream) : Upstream → Prop
  | start : Reachable us0 us0
  | get {us : Upstream} (now : ℤ) (rrp : PeerData) (h : Reachable us0 us) :
      Reachable us0 (ngxHttpUpstreamGetRoundRobinPeer now us rrp).2.1
  | free {us : Upstream} (now : ℤ) (failed : Bool) (rrp : PeerData) (h : Reachable us0 us) :
      Reachable us0 (ngxHttpUpstreamFreeRoundRobinPeer now failed us rrp)

/-- All peers of an upstream as `ngx_http_upstream_init_round_robin` sets their weights. -/
structure Configured (us : Upstream) : Prop where
  peers : Steady us.peers.peer
  next : ∀ next, us.next = some next → Steady next.peer

theorem Configured.inRange (h : Configured us) : us.InRange := by
  have hsteady : ∀ {peers : List Peer}, Steady peers → ∀ q ∈ peers, q.InRange := by
    intro peers hs q hq
    obtain ⟨h1, hlt, h2⟩ := hs q hq
    exact ⟨h1, hlt, by omega, by omega⟩
  exact ⟨hsteady h.peers, fun next hn => hsteady (h.next next hn)⟩

theorem Reachable.inRange {us0 : Upstream} (h : Reachable us0 us) (h0 : us0.InRange) :
    us.InRange := by
  induction h with
  | start => exact h0
  | get now rrp _ ih => exact ih.get now rrp
  | free now failed rrp _ ih => exact ih.free now failed rrp

/-- **Smooth weighted round robin.**  Without failures and as long as no sum wraps, each
stretch of as many selections as the weights sum to selects every peer as often as its
weight says and leaves the current weights as they were, which is zero after any number of
full rounds; no sum wraps if the sum of the weights times the harmonic number of the peers
is less than `2 ^ 63`; and every selection finds a peer.  In every reachable state the
effective weights are within `[0, weight]`. -/
theorem fair_and_inRange : (∀ (peers mid last : List Peer) (ps qs : List ℕ), Steady peers →
      (∀ q ∈ peers, q.currentWeight = 0) → Selections Fits peers ps mid →
      Selections Fits mid qs last → (qs.length : ℤ) = totalWeight peers →
      (∀ i (hi : i < peers.length), (qs.count i : ℤ) = (peers[i]).weight)
        ∧ last.map Peer.currentWeight = mid.map Peer.currentWeight
        ∧ (totalWeight peers ∣ ps.length → ∀ q ∈ last, q.currentWeight = 0))
      ∧ (∀ (peers last : List Peer) (ps : List ℕ), Steady peers →
        (∀ q ∈ peers, q.currentWeight = 0) → totalWeight peers * harmonic peers.length < 2 ^ 63 →
        Selections (fun _ => True) peers ps last → Selections Fits peers ps last)
      ∧ (∀ (now : ℤ) (tried : List (BitVec 64)) (peers : List Peer), peers ≠ [] →
        (∀ q ∈ peers, q.IsUp now) → Untried tried →
        (ngxHttpUpstreamGetPeer now tried peers).1.isSome)
      ∧ ∀ us0 us : Upstream, Configured us0 → Reachable us0 us → us.InRange :=
  ⟨fun _ _ _ _ _ hs hzero h h' hlen => selections_fair hs hzero h h' hlen,
    fun _ _ _ hs hzero hsmall h => selections_fit hs hzero hsmall h,
    fun _ _ _ hne hup htried => getPeer_isSome hup htried hne,
    fun _ _ hconf h => h.inRange hconf.inRange⟩

/-- A peer of the weight, never connected to. -/
def freshPeer (weight : ℤ) : Peer where
  currentWeight := 0
  effectiveWeight := weight
  weight := weight
  conns := 0
  maxConns := 0
  fails := 0
  accessed := 0
  checked := 0
  maxFails := 1
  failTimeout := 10
  down := false

/-- What two peers of weights 2 and 1 have become after three selections. -/
def selectedPeers : List Peer :=
  [{ freshPeer 2 with conns := 2, checked := 100 }, { freshPeer 1 with conns := 1, checked := 100 }]

/-- They are selected in the order 0, 1, 0. -/
theorem selections_twoPeers :
    Selections (fun _ => True) [freshPeer 2, freshPeer 1] [0, 1, 0] selectedPeers := by
  have htried := untried_replicate 1
  refine .get trivial (by decide : ∀ q ∈ _, Peer.IsUp 100 q) htried rfl ?_
  refine .get trivial (by decide : ∀ q ∈ _, Peer.IsUp 100 q) htried rfl ?_
  refine .get trivial (by decide : ∀ q ∈ _, Peer.IsUp 100 q) htried rfl ?_
  exact .nil _

/-- The statement at the two peers, in the first three selections. -/
theorem fair_and_inRange_twoPeers :
    (∀ i (hi : i < 2), (([0, 1, 0] : List ℕ).count i : ℤ) = ([freshPeer 2, freshPeer 1][i]).weight)
      ∧ ∀ q ∈ selectedPeers, q.currentWeight = 0 := by
  have hs : Steady [freshPeer 2, freshPeer 1] := by simp [Steady, freshPeer]
  have hzero : ∀ q ∈ [freshPeer 2, freshPeer 1], q.currentWeight = 0 := by simp [freshPeer]
  have hfits := fair_and_inRange.2.1 _ _ _ hs hzero
    (by norm_num [totalWeight, freshPeer, harmonic_succ]) selections_twoPeers
  obtain ⟨hcount, -, hback⟩ := fair_and_inRange.1 _ _ _ [] _ hs hzero (.nil _) hfits rfl
  exact ⟨hcount, hback (dvd_zero _)⟩

/-- Four peers of weight `2 ^ 62`, the first having been selected `conns` times: their weights
sum to `2 ^ 64`, which is zero as an `ngx_int_t`. -/
def fourPeers (c : ℤ) (conns : ℕ) (checked : ℤ) : List Peer :=
  let peer := { freshPeer (2 ^ 62) with currentWeight := c }
  [{ peer with conns := conns, checked := checked }, peer, peer, peer]

/-- However long they are selected from, it is always the first one. -/
theorem selections_fourPeers (n : ℕ) (c : ℤ) (conns : ℕ) (checked : ℤ) :
    ∃ last, Selections (fun _ => True) (fourPeers c conns checked) (replicate n 0) last := by
  induction n generalizing c conns checked with
  | zero => exact ⟨_, .nil _⟩
  | succ n ih =>
    obtain ⟨last, h⟩ := ih (ngxInt (c + 2 ^ 62)) (conns + 1)
      (if 100 - checked > 10 then 100 else checked)
    have hup : ∀ q ∈ fourPeers c conns checked, q.IsUp 100 := by
      simp [fourPeers, freshPeer, Peer.IsUp]
    have hsum : ngxInt (ngxInt (ngxInt (ngxInt (0 + 2 ^ 62) + 2 ^ 62) + 2 ^ 62) + 2 ^ 62) = 0 := by
      decide
    have hc : ngxInt (ngxInt (c + 2 ^ 62) - 0) = ngxInt (c + 2 ^ 62) := by
      rw [sub_zero]
      exact Int.bmod_bmod
    have hskip : ∀ q ∈ fourPeers c conns checked, ∀ i, skipped (replicate 1 0) 100 i q = false :=
      fun q hq => skipped_of_isUp (hup q hq) (untried_replicate 1)
    have hget : ngxHttpUpstreamGetPeer 100 (replicate 1 0) (fourPeers c conns checked)
        = (some 0, fourPeers (ngxInt (c + 2 ^ 62)) conns (if 100 - checked > 10 then 100
          else checked), markTried (replicate 1 0) 0) := by
      simp only [fourPeers, freshPeer, forall_mem_cons] at hskip
      obtain ⟨hfirst, hrest, -⟩ := hskip
      simp only [ngxHttpUpstreamGetPeer, fourPeers, scan, hfirst, hrest, Scan.visit, Peer.gain,
        freshPeer, lt_irrefl, gt_iff_lt, if_false, Bool.false_eq_true, hsum, modify_zero_cons,
        Peer.select, hc]
    exact ⟨last, .get trivial hup (untried_replicate 1) hget h⟩

/-- **The sum of the weights may wrap**: of four peers of weight `2 ^ 62` three are never
selected. -/
theorem not_fair_fourPeers :
    ¬ ∀ (qs : List ℕ) (last : List Peer), Selections (fun _ => True) (fourPeers 0 0 0) qs last →
      (qs.length : ℤ) = totalWeight (fourPeers 0 0 0) →
      ∀ i (hi : i < 4), (qs.count i : ℤ) = ((fourPeers 0 0 0)[i]).weight := by
  intro hfair
  obtain ⟨last, h⟩ := selections_fourPeers (2 ^ 64) 0 0 0
  have := hfair _ last h (by rw [length_replicate]; rfl) 1 (by decide)
  rw [count_replicate] at this
  exact absurd this (by decide)

end RoundRobin
