/-
# Request limiting

The shared zone of `ngx_http_limit_req_module.c` and the three functions that work on it
under its lock.  A zone has a node for each key it knows, with the excess the key had when
it was `last` accounted, in thousandths of a request, and the `count` of the requests that
are between their lookup and their accounting.  The nodes stand in a queue, the one looked
up last at the head.

The red-black tree of a zone holds the nodes of the queue and finds the one of a key; the
slab allocator is asked at most twice, and its answers are arguments of the lookup.
-/
import Mathlib.Algebra.Order.BigOperators.Group.Finset
import ReadingCode.LeakyBucket
import Mathlib.Algebra.BigOperators.Group.Finset.Piecewise

namespace LimitReq

open List

/-! ## Nodes, zones, limits -/

/-- `ngx_http_limit_req_node_t` -/
structure Node (κ : Type) where
  key : κ
  last : ℕ
  excess : ℕ
  count : ℕ
  deriving DecidableEq, Repr

/-- `ngx_http_limit_req_shctx_t`: a zone has one node for a key at most. -/
structure Zone (κ : Type) where
  queue : List (Node κ)
  nodup : (queue.map Node.key).Nodup

/-- `ngx_http_limit_req_ctx_t` as one worker has it: `sh` is shared, `node` its own. -/
structure Ctx (κ : Type) where
  sh : Zone κ
  rate : ℕ
  node : Option κ

/-- `ngx_http_limit_req_limit_t`, less its zone. -/
structure Limit where
  burst : ℕ
  nodelay : Bool
  deriving DecidableEq, Repr

/-- What the functions return. -/
inductive Rc where
  | ok
  | busy
  | again
  | error
  deriving DecidableEq, Repr

/-- A zone without nodes. -/
def Zone.empty (κ : Type) : Zone κ := ⟨[], nodup_nil⟩

/-! ## The arithmetic of the excess -/

/-- The value of an `ngx_int_t`. -/
def toInt (x : ℤ) : ℤ := Int.bmod x (2 ^ 64)

/-- `ngx_abs(ms)` of `ms = (ngx_msec_int_t) (now - lr->last)` -/
def absMs (now last : ℕ) : ℕ := (toInt (now - last)).natAbs

/-- `ctx->rate * ms / 1000` -/
def leak (rate ms : ℕ) : ℕ := rate * ms % 2 ^ 64 / 1000

section

variable {κ : Type}

/-- The excess of one request more, no less than zero. -/
def Node.excessAt (rate now : ℕ) (lr : Node κ) : ℕ :=
  let excess := toInt (lr.excess - leak rate (absMs now lr.last) + 1000)
  if excess < 0 then 0 else excess.toNat

/-- The node is old enough and has no excess left. -/
def Node.zeroRate (rate now : ℕ) (lr : Node κ) : Bool :=
  let ms := absMs now lr.last
  !(decide (ms < 60000)) && !(decide (toInt (lr.excess - leak rate ms) > 0))

/-! ## `ngx_http_limit_req_expire` -/

/-- A node deleted by `ngx_http_limit_req_expire`, by force or not. -/
structure Deleted (κ : Type) where
  key : κ
  force : Bool
  deriving DecidableEq, Repr

/-- The loop, `left` passes before `n` is 3: only the pass of `n == 0` is by force. -/
def expireLoop (rate now : ℕ) : ℕ → List (Node κ) → List (Node κ) × List (Deleted κ)
  | 0, queue => (queue, [])
  | left + 1, queue =>
    match queue.getLast? with
    | none => (queue, [])
    | some lr =>
      if lr.count ≠ 0 then (queue, [])
      else if left ≠ 2 ∧ ¬ lr.zeroRate rate now then (queue, [])
      else
        let r := expireLoop rate now left queue.dropLast
        (r.1, ⟨lr.key, decide (left = 2)⟩ :: r.2)

theorem expireLoop_sublist (rate now : ℕ) : ∀ (left : ℕ) (queue : List (Node κ)),
    (expireLoop rate now left queue).1.Sublist queue
  | 0, _ => List.Sublist.refl _
  | left + 1, queue => by
    rw [expireLoop]
    split
    · exact List.Sublist.refl _
    · split
      · exact List.Sublist.refl _
      · split
        · exact List.Sublist.refl _
        · exact (expireLoop_sublist rate now left _).trans (dropLast_sublist _)

/-- `ngx_http_limit_req_expire(ctx, n)` -/
def ngxHttpLimitReqExpire (rate now n : ℕ) (sh : Zone κ) : Zone κ × List (Deleted κ) :=
  (⟨(expireLoop rate now (3 - n) sh.queue).1,
      sh.nodup.sublist ((expireLoop_sublist rate now (3 - n) sh.queue).map _)⟩,
    (expireLoop rate now (3 - n) sh.queue).2)

variable [DecidableEq κ]

/-! ## The operations on a zone -/

/-- The node the tree has for the key. -/
def Zone.find (sh : Zone κ) (key : κ) : Option (Node κ) :=
  sh.queue.find? (·.key = key)

theorem nodup_cons_filter (lr : Node κ) {queue : List (Node κ)} (h : (queue.map Node.key).Nodup) :
    ((lr :: queue.filter (·.key ≠ lr.key)).map Node.key).Nodup := by
  rw [map_cons, nodup_cons]
  refine ⟨?_, h.sublist (filter_sublist.map _)⟩
  simp only [mem_map, mem_filter, decide_eq_true_eq, not_exists, not_and]
  exact fun x hx => hx.2

/-- The node goes to the head of the queue, from where it stood if it stood there. -/
def Zone.insertHead (sh : Zone κ) (lr : Node κ) : Zone κ where
  queue := lr :: sh.queue.filter (·.key ≠ lr.key)
  nodup := nodup_cons_filter lr sh.nodup

/-- A node is written to, in its place of the queue. -/
def Zone.modify (sh : Zone κ) (key : κ) (last excess count : ℕ) : Zone κ where
  queue := sh.queue.map fun lr => if lr.key = key then ⟨lr.key, last, excess, count⟩ else lr
  nodup := by
    rw [map_map]
    refine (map_congr_left fun lr _ => ?_) ▸ sh.nodup
    simp only [Function.comp]
    split <;> rfl

/-! ## `ngx_http_limit_req_lookup` -/

/-- What a lookup returns and leaves behind: `excess` is `*ep`. -/
structure Lookup (κ : Type) where
  rc : Rc
  excess : ℕ
  sh : Zone κ
  deleted : List (Deleted κ)

/-- The node made for a key that was not found. -/
def newNode (now : ℕ) (key : κ) (account : Bool) : Node κ :=
  if account then ⟨key, now, 0, 0⟩ else ⟨key, 0, 0, 1⟩

/-- The key has a node, which goes to the head of the queue. -/
def lookupFound (rate burst now : ℕ) (sh : Zone κ) (lr : Node κ) (account : Bool) : Lookup κ :=
  let excess := lr.excessAt rate now
  if excess > burst then ⟨.busy, excess, sh.insertHead lr, []⟩
  else if account then
    ⟨.ok, excess, sh.insertHead { lr with excess := excess, last := now }, []⟩
  else ⟨.again, excess, sh.insertHead { lr with count := lr.count + 1 }, []⟩

/-- The key has no node.  If the first allocation fails the oldest node is deleted by force
before the second. -/
def lookupNew (rate now : ℕ) (sh : Zone κ) (key : κ) (account alloc1 alloc2 : Bool) :
    Lookup κ :=
  let rc := if account then Rc.ok else .again
  let r1 := ngxHttpLimitReqExpire rate now 1 sh
  if alloc1 then ⟨rc, 0, r1.1.insertHead (newNode now key account), r1.2⟩
  else
    let r2 := ngxHttpLimitReqExpire rate now 0 r1.1
    if alloc2 then ⟨rc, 0, r2.1.insertHead (newNode now key account), r1.2 ++ r2.2⟩
    else ⟨.error, 0, r2.1, r1.2 ++ r2.2⟩

/-- `ngx_http_limit_req_lookup(limit, hash, key, ep, account)` -/
def ngxHttpLimitReqLookup (rate burst now : ℕ) (sh : Zone κ) (key : κ)
    (account alloc1 alloc2 : Bool) : Lookup κ :=
  match sh.find key with
  | some lr => lookupFound rate burst now sh lr account
  | none => lookupNew rate now sh key account alloc1 alloc2

/-! ## `ngx_http_limit_req_account` -/

/-- The critical section of one zone: the excess that is stored, and the zone. -/
def Zone.account (rate now : ℕ) (sh : Zone κ) (key : κ) : Option (ℕ × Zone κ) :=
  (sh.find key).map fun lr =>
    (lr.excessAt rate now, sh.modify key now (lr.excessAt rate now) (lr.count - 1))

/-- `ctx->node->count--` -/
def Zone.release (sh : Zone κ) (key : κ) : Zone κ :=
  match sh.find key with
  | some lr => sh.modify key lr.last lr.excess (lr.count - 1)
  | none => sh

/-- The variables `max_delay`, `*ep` and `*limit`, the limit as its number. -/
structure Delay where
  maxDelay : ℕ
  ep : ℕ
  limit : ℕ
  deriving DecidableEq, Repr

/-- The delay that one limit asks for. -/
def Delay.visit (d : Delay) (n : ℕ) (limit : Limit) (rate excess : ℕ) : Delay :=
  if limit.nodelay then d
  else
    let delay := excess * 1000 % 2 ^ 64 / rate
    if delay > d.maxDelay then ⟨delay, excess, n⟩ else d

/-- One pass of the loop, for the limit of number `n`. -/
def accountLimit (now n : ℕ) (limit : Limit) (ctx : Ctx κ) (d : Delay) : Ctx κ × Delay :=
  match ctx.node with
  | none => (ctx, d)
  | some key =>
    match ctx.sh.account ctx.rate now key with
    | none => (ctx, d)
    | some (excess, sh) =>
      ({ ctx with sh := sh, node := none }, d.visit n limit ctx.rate excess)

/-- `while (n--)`: the limits before the `n`th, the last of them first. -/
def accountLoop (now : ℕ) : ℕ → List (Limit × Ctx κ) → Delay → List (Limit × Ctx κ) × Delay
  | 0, limits, d => (limits, d)
  | n + 1, limits, d =>
    match limits[n]? with
    | none => accountLoop now n limits d
    | some (limit, ctx) =>
      let r := accountLimit now n limit ctx d
      accountLoop now n (limits.set n (limit, r.1)) r.2

/-- `ngx_http_limit_req_account(limits, n, ep, limit)`: the delay with `*ep` and `*limit`. -/
def ngxHttpLimitReqAccount (now n ep limit : ℕ) (limits : List (Limit × Ctx κ)) :
    List (Limit × Ctx κ) × Delay :=
  let maxDelay := match limits[limit]? with
    | some (l, ctx) => if ep = 0 ∨ l.nodelay then 0 else ep * 1000 % 2 ^ 64 / ctx.rate
    | none => 0
  accountLoop now n limits ⟨maxDelay, ep, limit⟩

end

/-! ## Workers on one zone -/

/-- A critical section of one of `W` workers: a lookup, with what the allocator answers, or
what follows a lookup that was answered `NGX_AGAIN`. -/
inductive Event (κ : Type) (W : ℕ) where
  | lookup (w : Fin W) (key : κ) (account alloc1 alloc2 : Bool)
  | account (w : Fin W)
  | release (w : Fin W)
  deriving DecidableEq, Repr

/-- The zone, and `ctx->node` of each worker. -/
structure State (κ : Type) (W : ℕ) where
  sh : Zone κ
  node : Fin W → Option κ

/-- What happened to a key: a request of it was accepted and left that excess in its node,
or the node was deleted. -/
inductive Mark (κ : Type) where
  | accepted (key : κ) (immediate : Bool) (excess : ℕ)
  | deleted (key : κ) (force : Bool)
  deriving DecidableEq, Repr

section

variable {κ : Type} [DecidableEq κ] {W : ℕ}

/-- All workers begin with an empty zone. -/
def State.init (κ : Type) (W : ℕ) : State κ W := ⟨Zone.empty κ, fun _ => none⟩

/-- The mark of a deleted node. -/
def Deleted.mark (d : Deleted κ) : Mark κ := .deleted d.key d.force

/-- The marks of a lookup: `NGX_OK` accepts the request, `NGX_AGAIN` leaves it open. -/
def Lookup.marks (r : Lookup κ) (key : κ) : List (Mark κ) :=
  r.deleted.map Deleted.mark ++ if r.rc = .ok then [.accepted key true r.excess] else []

/-- One critical section.  A worker looks a key up only when it has no node to account. -/
def step (rate burst now : ℕ) (s : State κ W) : Event κ W → Option (State κ W × List (Mark κ))
  | .lookup w key account alloc1 alloc2 =>
    if s.node w = none then
      let r := ngxHttpLimitReqLookup rate burst now s.sh key account alloc1 alloc2
      some (⟨r.sh, if r.rc = .again then Function.update s.node w (some key) else s.node⟩,
        r.marks key)
    else none
  | .account w =>
    match s.node w with
    | none => some (s, [])
    | some key =>
      match s.sh.account rate now key with
      | none => none
      | some (excess, sh) =>
        some (⟨sh, Function.update s.node w none⟩, [.accepted key false excess])
  | .release w =>
    match s.node w with
    | none => some (s, [])
    | some key => some (⟨s.sh.release key, Function.update s.node w none⟩, [])

/-- Critical sections one after the other, and the marks with their times. -/
def run (rate burst : ℕ) :
    State κ W → List (ℕ × Event κ W) → Option (State κ W × List (ℕ × Mark κ))
  | s, [] => some (s, [])
  | s, (now, e) :: events =>
    match step rate burst now s e with
    | none => none
    | some (s, marks) =>
      match run rate burst s events with
      | none => none
      | some (s, log) => some (s, marks.map (now, ·) ++ log)

end

/-!
# The node of a key

What each operation on a zone of `ngx_http_limit_req_module.c` does to the node of one key,
and what its arithmetic amounts to while the products of the clock fit their 64 bits.

A new node that is not accounted at once has `last` 0, so that the clock itself has to make
up for it: `rate * now` must reach one request.
-/

/-! ## The arithmetic while nothing overflows -/

/-- The clock is late enough for a new node, and what leaks since `since` does not overflow. -/
structure Fits (rate since now : ℕ) : Prop where
  msec : now < 2 ^ 63
  fresh : 10 ^ 6 ≤ rate * now
  prod : rate * (now - since) < 2 ^ 64

instance (rate since now : ℕ) : Decidable (Fits rate since now) :=
  decidable_of_iff (now < 2 ^ 63 ∧ 10 ^ 6 ≤ rate * now ∧ rate * (now - since) < 2 ^ 64)
    ⟨fun ⟨h1, h2, h3⟩ => ⟨h1, h2, h3⟩, fun ⟨h1, h2, h3⟩ => ⟨h1, h2, h3⟩⟩

variable {now rate since : ℕ}

theorem Fits.ne_zero (h : Fits rate since now) : now ≠ 0 := by
  rintro rfl
  have := h.fresh
  omega

/-- What leaks between two times. -/
def cap (rate s t : ℕ) : ℤ := (rate * (t - s) / 1000 : ℕ)

theorem isCap_cap (rate : ℕ) : LeakyBucket.IsCap (cap rate) where
  nonneg _ := Int.natCast_nonneg _
  add_le {r s t} hrs hst := by
    have hsplit : rate * (t - r) = rate * (s - r) + rate * (t - s) := by
      rw [← mul_add]
      congr 1
      omega
    simp only [cap, hsplit]
    omega

theorem toInt_eq {x : ℤ} (h1 : -2 ^ 63 ≤ x) (h2 : x < 2 ^ 63) : toInt x = x := by
  rw [toInt, Int.bmod_eq_of_le] <;> omega

theorem absMs_eq {last : ℕ} (h : last ≤ now) (hnow : now < 2 ^ 63) :
    absMs now last = now - last := by
  rw [absMs, toInt_eq (by omega) (by omega)]
  omega

theorem prod_lt {last : ℕ} (hfit : Fits rate since now) (hsince : since ≤ last) :
    rate * (now - last) < 2 ^ 64 :=
  (Nat.mul_le_mul_left _ (Nat.sub_le_sub_left hsince now)).trans_lt hfit.prod

theorem leak_eq {last : ℕ} (hfit : Fits rate since now) (hsince : since ≤ last) :
    (leak rate (now - last) : ℤ) = cap rate last now := by
  rw [leak, cap, Nat.mod_eq_of_lt (prod_lt hfit hsince)]

theorem cap_lt {last : ℕ} (hfit : Fits rate since now) (hsince : since ≤ last) :
    cap rate last now < 2 ^ 55 := by
  have := prod_lt hfit hsince
  rw [cap]
  omega

/-- A node that was never accounted is as good as an empty one. -/
theorem le_cap_zero (hfit : Fits rate since now) : 1000 ≤ cap rate 0 now := by
  have := hfit.fresh
  rw [cap, Nat.sub_zero]
  omega

section

variable {κ : Type} {rate burst since now : ℕ}

variable {k : κ} {lr : Node κ} {sh : Zone κ}

/-- The excess of one request more, in `ℤ`. -/
theorem excessAt_eq (hfit : Fits rate since now) (hsince : since ≤ lr.last)
    (hlast : lr.last ≤ now) (hexcess : lr.excess + 1000 < 2 ^ 63) :
    (lr.excessAt rate now : ℤ) = max 0 (lr.excess - cap rate lr.last now + 1000) := by
  have h1 := cap_lt hfit hsince
  have h2 := (isCap_cap rate).nonneg hlast
  rw [Node.excessAt, absMs_eq hlast hfit.msec, leak_eq hfit hsince, toInt_eq (by omega) (by omega)]
  split <;> omega

/-- What has no excess left has leaked away. -/
theorem excess_le_of_zeroRate (hfit : Fits rate since now) (hsince : since ≤ lr.last)
    (hlast : lr.last ≤ now) (hexcess : lr.excess + 1000 < 2 ^ 63)
    (h : lr.zeroRate rate now = true) :
    (lr.excess : ℤ) ≤ cap rate lr.last now := by
  have h1 := cap_lt hfit hsince
  have h2 := (isCap_cap rate).nonneg hlast
  simp only [Node.zeroRate, absMs_eq hlast hfit.msec, leak_eq hfit hsince, Bool.and_eq_true,
    Bool.not_eq_true', decide_eq_false_iff_not, not_lt] at h
  have h3 := h.2
  rw [toInt_eq (by omega) (by omega)] at h3
  omega

variable [DecidableEq κ]

/-! ## What the operations do to the node of a key -/

theorem find_key (h : sh.find k = some lr) : lr.key = k := by
  simpa using find?_some h

theorem find_insertHead (sh : Zone κ) (lr : Node κ) (k : κ) :
    (sh.insertHead lr).find k = if lr.key = k then some lr else sh.find k := by
  simp only [Zone.find, Zone.insertHead, find?_cons]
  by_cases h : lr.key = k
  · simp [h]
  · rw [if_neg h, decide_eq_false h, find?_filter]
    show find? _ _ = _
    congr 1
    funext x
    by_cases hx : x.key = k
    · simp [hx, Ne.symm h]
    · simp [hx]

theorem find_modify (sh : Zone κ) (key : κ) (last excess count : ℕ) (k : κ) :
    (sh.modify key last excess count).find k =
      if key = k then (sh.find k).map (fun lr => ⟨lr.key, last, excess, count⟩) else sh.find k := by
  have hpred : ((fun lr : Node κ => decide (lr.key = k)) ∘
      fun lr => if lr.key = key then ⟨lr.key, last, excess, count⟩ else lr) =
      fun lr => decide (lr.key = k) := by
    funext lr
    simp only [Function.comp]
    split <;> rfl
  have hfind : (sh.modify key last excess count).find k = (sh.find k).map
      (fun lr => if lr.key = key then ⟨lr.key, last, excess, count⟩ else lr) := by
    rw [Zone.find, Zone.modify, find?_map, hpred, Zone.find]
  rw [hfind]
  rcases hf : sh.find k with _ | lr
  · simp
  · by_cases h : key = k
    · simp [h, find_key hf]
    · simp [h, find_key hf, Ne.symm h]

/-- What sweeping a zone does to the node of a key: it leaves it, or it deletes it, when
nobody is about to account it. -/
inductive Swept (rate now : ℕ) (k : κ) : Option (Node κ) → List (Deleted κ) →
    Option (Node κ) → Prop
  | kept {o del} (h : del.filter (·.key = k) = []) : Swept rate now k o del o
  | gone {lr del} {force : Bool} (h : del.filter (·.key = k) = [⟨k, force⟩])
      (hcount : lr.count = 0) (hrate : force = false → lr.zeroRate rate now = true) :
    Swept rate now k (some lr) del none

theorem Swept.append {o m o' : Option (Node κ)} {del del' : List (Deleted κ)}
    (h : Swept rate now k o del m) (h' : Swept rate now k m del' o') :
    Swept rate now k o (del ++ del') o' := by
  cases h with
  | kept h =>
    cases h' with
    | kept h' => exact .kept (by rw [filter_append, h, h', append_nil])
    | gone h' hcount hrate =>
      exact .gone (by rw [filter_append, h, h', nil_append]) hcount hrate
  | gone h hcount hrate =>
    cases h' with
    | kept h' => exact .gone (by rw [filter_append, h, h', append_nil]) hcount hrate

/-- The loop sweeps: it takes nodes off the end of the queue. -/
theorem swept_expireLoop (rate now : ℕ) (k : κ) : ∀ (left : ℕ) (queue : List (Node κ)),
    (queue.map Node.key).Nodup →
    Swept rate now k (queue.find? (·.key = k)) (expireLoop rate now left queue).2
      ((expireLoop rate now left queue).1.find? (·.key = k))
  | 0, _, _ => .kept rfl
  | left + 1, queue, hnodup => by
    rw [expireLoop]
    rcases hlast : queue.getLast? with _ | lr
    · exact .kept rfl
    obtain ⟨init, rfl⟩ : ∃ init, queue = init ++ [lr] := getLast?_eq_some_iff.1 hlast
    simp only [dropLast_concat]
    by_cases hcount : lr.count = 0
    swap
    · rw [if_pos hcount]
      exact .kept rfl
    rw [if_neg (not_not.2 hcount)]
    by_cases hstop : left ≠ 2 ∧ ¬ lr.zeroRate rate now = true
    · rw [if_pos hstop]
      exact .kept rfl
    rw [if_neg hstop]
    have hinit : (init.map Node.key).Nodup := by
      rw [map_append] at hnodup
      exact (nodup_append.1 hnodup).1
    have ih := swept_expireLoop rate now k left init hinit
    have happ : (⟨lr.key, decide (left = 2)⟩ : Deleted κ) :: (expireLoop rate now left init).2
        = [⟨lr.key, decide (left = 2)⟩] ++ (expireLoop rate now left init).2 := rfl
    simp only [happ]
    refine Swept.append ?_ ih
    rw [find?_append]
    by_cases hk : lr.key = k
    · -- The node taken off is the one of the key, so no other is.
      have hnone : init.find? (fun x => decide (x.key = k)) = none := by
        rw [find?_eq_none]
        intro x hx hxk
        rw [map_append, nodup_append] at hnodup
        refine hnodup.2.2 x.key (mem_map_of_mem hx) lr.key (by simp) ?_
        rw [hk]
        simpa using hxk
      rw [hnone]
      simp only [Option.none_or, find?_cons, hk, decide_true]
      have hdel : ([⟨lr.key, decide (left = 2)⟩] : List (Deleted κ)).filter (·.key = k)
          = [⟨k, decide (left = 2)⟩] := by simp [hk]
      rw [hk] at hdel
      refine .gone hdel hcount fun hforce => ?_
      by_contra hz
      exact hstop ⟨by simpa using hforce, hz⟩
    · simp only [find?_cons, hk, decide_false, find?_nil, Option.or_none]
      exact .kept (by simp [hk])

theorem swept_expire (rate now n : ℕ) (sh : Zone κ) (k : κ) :
    Swept rate now k (sh.find k) (ngxHttpLimitReqExpire rate now n sh).2
      ((ngxHttpLimitReqExpire rate now n sh).1.find k) :=
  swept_expireLoop rate now k (3 - n) sh.queue sh.nodup

/-- A lookup of another key sweeps the zone at most. -/
theorem swept_lookup {key : κ} (hk : key ≠ k) (account alloc1 alloc2 : Bool) :
    Swept rate now k (sh.find k)
      (ngxHttpLimitReqLookup rate burst now sh key account alloc1 alloc2).deleted
      ((ngxHttpLimitReqLookup rate burst now sh key account alloc1 alloc2).sh.find k) := by
  rw [ngxHttpLimitReqLookup]
  rcases hf : sh.find key with _ | lr
  · have h1 := swept_expire rate now 1 sh k
    have h2 := swept_expire rate now 0 (ngxHttpLimitReqExpire rate now 1 sh).1 k
    have hnew : ∀ z : Zone κ, (z.insertHead (newNode now key account)).find k = z.find k := by
      intro z
      rw [find_insertHead, if_neg]
      cases account <;> exact hk
    simp only [lookupNew]
    cases alloc1
    · cases alloc2
      · exact h1.append h2
      · simp only [Bool.false_eq_true, if_false, if_true, hnew]
        exact h1.append h2
    · simp only [if_true, hnew]
      exact h1
  · have hlr : lr.key ≠ k := by rw [find_key hf]; exact hk
    simp only [lookupFound]
    split
    · simp only [find_insertHead, if_neg hlr]
      exact .kept rfl
    · split <;>
      · simp only [find_insertHead, if_neg hlr]
        exact .kept rfl

/-- A key without a node gets one, or there is no room for it. -/
theorem lookupNew_spec (rate now : ℕ) {key : κ} (h : sh.find key = none)
    (account alloc1 alloc2 : Bool) :
    (lookupNew rate now sh key account alloc1 alloc2).deleted.filter (·.key = key) = [] ∧
      ((lookupNew rate now sh key account alloc1 alloc2).rc = .error
          ∧ (lookupNew rate now sh key account alloc1 alloc2).sh.find key = none
        ∨ (lookupNew rate now sh key account alloc1 alloc2).rc = (if account then .ok else .again)
          ∧ (lookupNew rate now sh key account alloc1 alloc2).excess = 0
          ∧ (lookupNew rate now sh key account alloc1 alloc2).sh.find key
              = some (newNode now key account)) := by
  have hkept : ∀ {o o' : Option (Node κ)} {del}, o = none → Swept rate now key o del o' →
      del.filter (·.key = key) = [] ∧ o' = none := by
    intro o o' del ho hs
    cases hs with
    | kept h => exact ⟨h, ho⟩
    | gone => cases ho
  have h1 := hkept h (swept_expire rate now 1 sh key)
  have h2 := hkept h1.2 (swept_expire rate now 0 (ngxHttpLimitReqExpire rate now 1 sh).1 key)
  have hnew : (newNode now key account).key = key := by cases account <;> rfl
  simp only [lookupNew]
  cases alloc1
  · cases alloc2
    · refine ⟨?_, .inl ⟨rfl, h2.2⟩⟩
      simp only [Bool.false_eq_true, if_false]
      rw [filter_append, h1.1, h2.1, append_nil]
    · refine ⟨?_, .inr ⟨rfl, rfl, ?_⟩⟩
      · simp only [Bool.false_eq_true, if_false, if_true]
        rw [filter_append, h1.1, h2.1, append_nil]
      · simp [find_insertHead, hnew]
  · refine ⟨h1.1, .inr ⟨rfl, rfl, ?_⟩⟩
    simp [find_insertHead, hnew]

end

/-!
# The invariant of request limiting

The excess of a node is no more than the burst and one request for each worker but one, who may look
the key up before it is accounted.
-/

open Function (update)

open Option Finset

section

variable {κ : Type} {W : ℕ} {rate burst since now : ℕ}

/-! ## The invariant of a node -/

/-- The highest excess of a node. -/
def top (burst W : ℕ) : ℤ := burst + 1000 * (W - 1)

/-- What holds of the node of a key when `p` requests of it are about to be accounted: its
excess is within the bound, and would be if they were accounted now. -/
structure NodeInv (rate burst W since now p : ℕ) (lr : Node κ) : Prop where
  count : lr.count = p
  since : since ≤ lr.last
  last : lr.last ≤ now
  fresh : lr.last = 0 → lr.excess = 0
  excess : (lr.excess : ℤ) ≤ top burst W
  open_le : (lr.excess : ℤ) - cap rate lr.last now + 1000 * p ≤ top burst W

variable {p : ℕ} {lr : Node κ}

/-- Time passes. -/
theorem NodeInv.later {now' : ℕ} (h : NodeInv rate burst W since now p lr)
    (hnow : now ≤ now') : NodeInv rate burst W since now' p lr where
  count := h.count
  since := h.since
  last := h.last.trans hnow
  fresh := h.fresh
  excess := h.excess
  open_le := by
    have := (isCap_cap rate).mono le_rfl h.last hnow
    have := h.open_le
    omega

/-- The excess of a node is far from overflowing. -/
theorem NodeInv.excess_lt (h : NodeInv rate burst W since now p lr)
    (hburst : burst + 1000 * W < 2 ^ 63) : lr.excess + 1000 < 2 ^ 63 := by
  have := h.excess
  simp only [top] at this
  omega

/-- The excess of one request more, in terms of what leaked. -/
theorem NodeInv.excessAt (h : NodeInv rate burst W since now p lr)
    (hfit : Fits rate since now) (hburst : burst + 1000 * W < 2 ^ 63) :
    (lr.excessAt rate now : ℤ) = max 0 (lr.excess - cap rate lr.last now + 1000) :=
  excessAt_eq hfit h.since h.last (h.excess_lt hburst)

variable [DecidableEq κ]

/-! ## The requests between lookup and accounting -/

/-- How many workers are about to account the key. -/
def pending (node : Fin W → Option κ) (k : κ) : ℕ :=
  (univ.filter fun w => node w = some k).card

/-- The count changes by what one worker's `ctx->node` was and becomes. -/
theorem pending_update (node : Fin W → Option κ) (w : Fin W) (o : Option κ) (k : κ) :
    pending (update node w o) k + (if node w = some k then 1 else 0)
      = pending node k + if o = some k then 1 else 0 := by
  simp only [pending, card_filter]
  rw [← add_sum_erase _ (fun v => if update node w o v = some k then 1 else 0)
      (mem_univ w),
    ← add_sum_erase _ (fun v => if node v = some k then 1 else 0) (mem_univ w)]
  have herase : ∀ v ∈ univ.erase w,
      (if update node w o v = some k then 1 else 0)
        = if node v = some k then 1 else 0 := by
    intro v hv
    rw [Function.update_of_ne (ne_of_mem_erase hv)]
  rw [sum_congr rfl herase, Function.update_self]
  omega

theorem pending_le (node : Fin W → Option κ) (k : κ) : pending node k ≤ W := by
  refine (card_filter_le _ _).trans ?_
  simp

variable {node : Fin W → Option κ} {w : Fin W}

/-- A worker without a node leaves room for its own request. -/
theorem pending_lt (h : node w = none) (k : κ) : pending node k < W := by
  have hupd := pending_update node w (some k) k
  have hle := pending_le (update node w (some k)) k
  simp only [h, reduceCtorEq, if_false, if_true, add_zero] at hupd
  omega

/-! ## The invariant of a state -/

/-- The node of a key is as it should be, and a key without one has no request open. -/
def InvAt (rate burst W since now p : ℕ) : Option (Node κ) → Prop
  | none => p = 0
  | some lr => NodeInv rate burst W since now p lr

/-- So it is for every key. -/
def Inv (rate burst since now : ℕ) (s : State κ W) : Prop :=
  ∀ k, InvAt rate burst W since now (pending s.node k) (s.sh.find k)

theorem inv_init : Inv rate burst since now (State.init κ W) := by
  intro k
  simp [InvAt, State.init, Zone.empty, Zone.find, pending]

variable {s : State κ W}

theorem Inv.later {now' : ℕ} (h : Inv rate burst since now s) (hnow : now ≤ now') :
    Inv rate burst since now' s := by
  intro k
  have hk := h k
  rcases hf : s.sh.find k with _ | lr
  · rw [hf] at hk
    exact hk
  · rw [hf] at hk
    exact hk.later hnow

/-! ## The node as a bucket -/

/-- A node that was never accounted counts for nothing. -/
def bucket : Option (Node κ) → Option (LeakyBucket.Bucket ℕ)
  | none => none
  | some lr => if lr.last = 0 then none else some ⟨lr.excess, lr.last⟩

/-- What a mark means for the bucket of a key. -/
def action (k : κ) : Mark κ → Option LeakyBucket.Action
  | .accepted key _ _ => if key = k then some .take else none
  | .deleted key _ => if key = k then some .drop else none

/-- The marks of a key, as actions on its bucket. -/
def actions (k : κ) (log : List (ℕ × Mark κ)) : List (ℕ × LeakyBucket.Action) :=
  log.filterMap fun p => (action k p.2).map (p.1, ·)

/-- No node of the key is deleted by force. -/
def NoForce (k : κ) (log : List (ℕ × Mark κ)) : Prop :=
  ∀ p ∈ log, p.2 ≠ .deleted k true

/-- The step of a bucket, one after the other. -/
def BucketRun (rate : ℕ) :=
  LeakyBucket.Run (T := ℕ) 1000 (cap rate)

/-- The deleted nodes of other keys are no actions. -/
theorem actions_deleted (now : ℕ) (k : κ) (del : List (Deleted κ)) :
    actions k ((del.map Deleted.mark).map (now, ·))
      = (del.filter (·.key = k)).map fun _ => (now, .drop) := by
  induction del with
  | nil => rfl
  | cons d del ih =>
    simp only [actions, List.map_cons, filterMap_cons, Deleted.mark, action] at ih ⊢
    by_cases h : d.key = k
    · simp only [h, if_true, map_some, List.filter_cons_of_pos, decide_true, List.map_cons, ih]
    · simp only [h, if_false, map_none, decide_false, Bool.false_eq_true,
        not_false_eq_true, List.filter_cons_of_neg, ih]

theorem actions_append (k : κ) (l l' : List (ℕ × Mark κ)) :
    actions k (l ++ l') = actions k l ++ actions k l' :=
  filterMap_append

variable {k : κ}

variable {del : List (Deleted κ)} {o o' : Option (Node κ)}

/-- Sweeping drops the bucket when it is empty, or by force. -/
theorem Swept.bucketRun
    (h : Swept rate now k o del o') (hfit : Fits rate since now)
    (hburst : burst + 1000 * W < 2 ^ 63)
    (hinv : InvAt rate burst W since now p o) (hforce : ∀ d ∈ del, d.key = k → d.force = false) :
    BucketRun rate (bucket o) (actions k ((del.map Deleted.mark).map (now, ·))) (bucket o') := by
  rw [actions_deleted]
  cases h with
  | kept h => rw [h]; exact .nil _
  | @gone lr _ force h hcount hrate =>
    have hmem : (⟨k, force⟩ : Deleted κ) ∈ del.filter (·.key = k) := by rw [h]; simp
    have hfalse : force = false := hforce _ (mem_filter.1 hmem).1 rfl
    have hlr : NodeInv rate burst W since now p lr := hinv
    rw [h]
    refine .single ?_
    simp only [bucket]
    split
    · exact .dropNone
    · exact .drop hlr.last (excess_le_of_zeroRate hfit hlr.since hlr.last (hlr.excess_lt hburst)
        (hrate hfalse))

/-- Sweeping keeps the invariant: a node with requests open is not deleted. -/
theorem Swept.invAt (h : Swept rate now k o del o') (hinv : InvAt rate burst W since now p o) :
    InvAt rate burst W since now p o' := by
  cases h with
  | kept => exact hinv
  | gone _ hcount _ => exact (NodeInv.count hinv).symm.trans hcount

/-- Accounting a node takes a request. -/
theorem bucketRun_take {lr' : Node κ} (hinv : NodeInv rate burst W since now p lr)
    (hfit : Fits rate since now) (hburst : burst + 1000 * W < 2 ^ 63) (hlast : lr'.last = now)
    (hexcess : lr'.excess = lr.excessAt rate now) (k : κ) (immediate : Bool) (x : ℕ) :
    BucketRun rate (bucket (some lr)) (actions k [(now, .accepted k immediate x)])
      (bucket (some lr')) := by
  have hnow : now ≠ 0 := by
    rintro rfl
    have := hfit.fresh
    omega
  have heq := hinv.excessAt hfit hburst
  simp only [actions, action, filterMap_cons, if_true, map_some, filterMap_nil]
  refine .single ?_
  simp only [bucket, hlast, if_neg hnow, hexcess]
  split
  · exact .takeFresh (by simp) rfl
  · refine .take hinv.last (by simp) ?_ rfl
    simp only [heq]
    omega

/-! ## One critical section -/

/-- What a critical section at `now` does for one key, whose node was `o` and becomes `o'`
while `p` requests are left open: it keeps the invariant, its marks are actions on the bucket,
and what it accepts leaves no more excess than it may. -/
structure KeyStep (rate burst W since now : ℕ) (k : κ) (o : Option (Node κ)) (marks : List (Mark κ))
    (p : ℕ) (o' : Option (Node κ)) : Prop where
  inv : InvAt rate burst W since now p o'
  run : (∀ m ∈ marks, m ≠ .deleted k true) →
    BucketRun rate (bucket o) (actions k (marks.map (now, ·))) (bucket o')
  accepted : ∀ (immediate : Bool) (x : ℕ), .accepted k immediate x ∈ marks →
    o'.map Node.excess = some x ∧ (x : ℤ) ≤ if immediate then (burst : ℤ) else top burst W

variable {key : κ}

theorem actions_accepted_ne (h : key ≠ k) (rc : Rc) (x : ℕ) :
    actions k ((if rc = .ok then [Mark.accepted key true x] else []).map (now, ·)) = [] := by
  split
  · simp [actions, action, h]
  · rfl

variable {sh : Zone κ}

/-- A lookup of another key. -/
theorem keyStep_lookup_ne (hk : key ≠ k) (hinv : InvAt rate burst W since now p (sh.find k))
    (hfit : Fits rate since now) (hburst : burst + 1000 * W < 2 ^ 63)
    (account alloc1 alloc2 : Bool) :
    let r := ngxHttpLimitReqLookup rate burst now sh key account alloc1 alloc2
    KeyStep rate burst W since now k (sh.find k) (r.marks key) p (r.sh.find k) := by
  intro r
  have hswept : Swept rate now k (sh.find k) r.deleted (r.sh.find k) :=
    swept_lookup hk account alloc1 alloc2
  refine ⟨hswept.invAt hinv, fun hforce => ?_, fun immediate x hx => ?_⟩
  · rw [Lookup.marks, map_append, actions_append, actions_accepted_ne hk, append_nil]
    refine hswept.bucketRun hfit hburst hinv fun d hd hdk => ?_
    have hne := hforce d.mark (mem_append_left _ (mem_map_of_mem hd))
    rcases d with ⟨key', force⟩
    subst hdk
    cases force
    · rfl
    · exact absurd rfl hne
  · rw [Lookup.marks, mem_append] at hx
    rcases hx with hx | hx
    · simp [Deleted.mark] at hx
    · split at hx
      · simp only [List.mem_singleton, Mark.accepted.injEq] at hx
        exact absurd hx.1.symm hk
      · cases hx

/-- A lookup of the key, which has a node. -/
theorem keyStep_lookupFound (hinv : NodeInv rate burst W since now p lr) (hp : p < W)
    (hfit : Fits rate since now) (hburst : burst + 1000 * W < 2 ^ 63) (account : Bool) :
    let r := lookupFound rate burst now sh lr account
    KeyStep rate burst W since now lr.key (some lr) (r.marks lr.key)
      (if r.rc = .again then p + 1 else p) (r.sh.find lr.key) := by
  have hx := hinv.excessAt hfit hburst
  simp only [lookupFound]
  by_cases hbusy : lr.excessAt rate now > burst
  · -- A request too many changes nothing but the order of the queue.
    simp only [if_pos hbusy, find_insertHead, if_true, reduceCtorEq, if_false]
    exact ⟨hinv, fun _ => .nil _, by simp [Lookup.marks]⟩
  have hle : (lr.excessAt rate now : ℤ) ≤ burst := by omega
  simp only [if_neg hbusy]
  cases account
  · -- The request stays open: there is room for it and for those of the other workers.
    simp only [Bool.false_eq_true, if_false, if_true, find_insertHead]
    refine ⟨⟨?_, hinv.since, hinv.last, hinv.fresh, hinv.excess, ?_⟩, fun _ => .nil _,
      by simp [Lookup.marks]⟩
    · simp only [hinv.count]
    · simp only [top]
      omega
  · have hcap := (isCap_cap rate).nonneg (le_refl now)
    have htop : (lr.excessAt rate now : ℤ) + 1000 * p ≤ top burst W := by
      simp only [top]
      omega
    simp only [if_true, find_insertHead, reduceCtorEq, if_false]
    refine ⟨⟨hinv.count, hinv.since.trans hinv.last, le_rfl, fun h0 => absurd h0 hfit.ne_zero, ?_,
      ?_⟩, fun _ => ?_, fun immediate x hmem => ?_⟩
    · dsimp only
      omega
    · dsimp only
      omega
    · exact bucketRun_take hinv hfit hburst rfl rfl lr.key true _
    · simp only [Lookup.marks, if_true, map_nil, nil_append, List.mem_singleton,
        Mark.accepted.injEq, true_and] at hmem
      obtain ⟨rfl, rfl⟩ := hmem
      exact ⟨rfl, by simpa using hle⟩

/-- A lookup of a key without a node. -/
theorem keyStep_lookupNew (hf : sh.find k = none) (hW : 0 < W) (hfit : Fits rate since now)
    (account alloc1 alloc2 : Bool) (hsince : since ≤ if account then now else 0) :
    let r := lookupNew rate now sh k account alloc1 alloc2
    KeyStep rate burst W since now k none (r.marks k) (if r.rc = .again then 1 else 0)
      (r.sh.find k) := by
  intro r
  obtain ⟨hdel, hr⟩ := lookupNew_spec rate now hf account alloc1 alloc2
  have hactions : actions k ((r.deleted.map Deleted.mark).map (now, ·)) = [] := by
    rw [actions_deleted, hdel]
    rfl
  have hmem : ∀ immediate x, .accepted k immediate x ∈ r.marks k → r.excess = x ∧ r.rc = .ok
      ∧ immediate = true := by
    intro immediate x hx
    rw [Lookup.marks, mem_append] at hx
    rcases hx with hx | hx
    · simp [Deleted.mark] at hx
    · split at hx
      · simp only [List.mem_singleton, Mark.accepted.injEq, true_and] at hx
        exact ⟨hx.2.symm, ‹_›, hx.1⟩
      · cases hx
  have htop : 0 ≤ top burst W := by
    simp only [top]
    omega
  rcases hr with ⟨hrc, hnone⟩ | ⟨hrc, hexcess, hsome⟩
  · -- There was no room.
    have hrc' : r.rc = .error := hrc
    have hnone' : r.sh.find k = none := hnone
    rw [hrc', hnone']
    refine ⟨rfl, fun _ => ?_, fun immediate x hx => absurd (hmem immediate x hx).2.1
      (by simp [hrc'])⟩
    rw [Lookup.marks, map_append, actions_append, hactions, hrc']
    exact .nil _
  · have hrc' : r.rc = if account then .ok else .again := hrc
    have hexcess' : r.excess = 0 := hexcess
    have hsome' : r.sh.find k = some (newNode now k account) := hsome
    rw [hsome']
    have hrun : actions k ((r.marks k).map (now, ·)) = if account then [(now, .take)] else [] := by
      rw [Lookup.marks, map_append, actions_append, hactions, hrc']
      cases account <;> simp [actions, action]
    have hacc : ∀ (immediate : Bool) (x : ℕ), .accepted k immediate x ∈ r.marks k →
        (some (newNode now k account)).map Node.excess = some x ∧
          (x : ℤ) ≤ if immediate then (burst : ℤ) else top burst W := by
      intro immediate x hx
      obtain ⟨h1, -, rfl⟩ := hmem immediate x hx
      rw [← h1, hexcess']
      exact ⟨by cases account <;> rfl, by simp⟩
    have hcap := le_cap_zero hfit
    have hself := (isCap_cap rate).nonneg (le_refl now)
    rw [hrc']
    cases account
    · refine ⟨⟨rfl, hsince, Nat.zero_le _, fun _ => rfl, ?_, ?_⟩, fun _ => ?_, hacc⟩
      · simpa [newNode] using htop
      · simp only [newNode, Bool.false_eq_true, if_false, if_true]
        omega
      · rw [hrun]
        exact .nil _
    · refine ⟨⟨rfl, hsince, le_rfl, fun _ => rfl, ?_, ?_⟩, fun _ => ?_, hacc⟩
      · simpa [newNode] using htop
      · simp only [newNode, if_true, reduceCtorEq, if_false]
        omega
      · rw [hrun]
        refine .single ?_
        simp only [bucket, newNode, if_true, if_neg hfit.ne_zero]
        exact .takeFresh le_rfl rfl

/-- A lookup. -/
theorem keyStep_lookup (hinv : ∀ k, InvAt rate burst W since now (pending node k) (sh.find k))
    (hw : node w = none) (hfit : Fits rate since now) (hburst : burst + 1000 * W < 2 ^ 63) (key : κ)
    (account alloc1 alloc2 : Bool) (hsince : since ≤ if account then now else 0) (k : κ) :
    let r := ngxHttpLimitReqLookup rate burst now sh key account alloc1 alloc2
    KeyStep rate burst W since now k (sh.find k) (r.marks key)
      (pending (if r.rc = .again then update node w (some key) else node) k)
      (r.sh.find k) := by
  intro r
  have hk := hinv k
  have hupd := pending_update node w (some key) k
  simp only [hw, reduceCtorEq, if_false, Option.some.injEq, add_zero] at hupd
  by_cases hne : key = k
  swap
  · rw [if_neg hne] at hupd
    have hp : pending (if r.rc = .again then update node w (some key) else node) k
        = pending node k := by
      split
      · exact hupd
      · rfl
    rw [hp]
    exact keyStep_lookup_ne hne hk hfit hburst account alloc1 alloc2
  · subst hne
    rw [if_pos rfl] at hupd
    have hp : pending (if r.rc = .again then update node w (some key) else node) key
        = if r.rc = .again then pending node key + 1 else pending node key := by
      split
      · exact hupd
      · rfl
    rw [hp]
    have hlt := pending_lt hw key
    rcases hf : sh.find key with _ | lr
    · rw [hf] at hk
      have hp0 : pending node key = 0 := hk
      have hr : r = lookupNew rate now sh key account alloc1 alloc2 := by
        simp only [r, ngxHttpLimitReqLookup, hf]
      rw [hp0, hr]
      exact keyStep_lookupNew hf (by omega) hfit account alloc1 alloc2 hsince
    · rw [hf] at hk
      have hr : r = lookupFound rate burst now sh lr account := by
        simp only [r, ngxHttpLimitReqLookup, hf]
      rw [hr]
      obtain rfl := find_key hf
      exact keyStep_lookupFound hk hlt hfit hburst account

/-- What one worker does to the node it is about to account. -/
theorem keyStep_modify
    (hinv : ∀ k, InvAt rate burst W since now (pending node k) (sh.find k)) (hw : node w = some key)
    (hf : sh.find key = some lr) {last excess : ℕ} {marks : List (Mark κ)}
    (hmarks : ∀ m ∈ marks, ∃ x, m = .accepted key false x)
    (hkey : ∀ p, NodeInv rate burst W since now (p + 1) lr → p < W →
      KeyStep rate burst W since now key (some lr) marks p
        (some ⟨key, last, excess, lr.count - 1⟩)) (k : κ) :
    KeyStep rate burst W since now k (sh.find k) marks (pending (update node w none) k)
      ((sh.modify key last excess (lr.count - 1)).find k) := by
  have hupd := pending_update node w none k
  simp only [hw, reduceCtorEq, if_false, Option.some.injEq, add_zero] at hupd
  have hk := hinv k
  rw [find_modify]
  by_cases hne : key = k
  · subst hne
    rw [if_pos rfl] at hupd
    have hle := pending_le node key
    rw [hf] at hk ⊢
    rw [if_pos rfl, map_some, find_key hf]
    refine hkey _ ?_ (by omega)
    rw [hupd]
    exact hk
  · rw [if_neg hne] at hupd ⊢
    rw [add_zero] at hupd
    rw [hupd]
    refine ⟨hk, fun _ => ?_, fun immediate x hx => ?_⟩
    · have hactions : actions k (marks.map (now, ·)) = [] := by
        rw [actions, filterMap_eq_nil_iff]
        intro p hp
        obtain ⟨m, hm, rfl⟩ := mem_map.1 hp
        obtain ⟨x, rfl⟩ := hmarks m hm
        simp [action, hne]
      rw [hactions]
      exact .nil _
    · obtain ⟨x', hx'⟩ := hmarks _ hx
      rw [Mark.accepted.injEq] at hx'
      exact absurd hx'.1.symm hne

/-- The `last` of a node that a critical section makes. -/
def Event.last (now : ℕ) : Event κ W → ℕ
  | .lookup _ _ atOnce _ _ => if atOnce then now else 0
  | _ => now

/-- **One critical section.** -/
theorem keyStep_step {s' : State κ W} {e : Event κ W} {marks : List (Mark κ)}
    (hinv : Inv rate burst since now s) (hfit : Fits rate since now) (hsince : since ≤ e.last now)
    (hburst : burst + 1000 * W < 2 ^ 63) (h : step rate burst now s e = some (s', marks)) (k : κ) :
    KeyStep rate burst W since now k (s.sh.find k) marks (pending s'.node k) (s'.sh.find k) := by
  have hnothing : KeyStep rate burst W since now k (s.sh.find k) [] (pending s.node k)
    (s.sh.find k) :=
    ⟨hinv k, fun _ => .nil _, by simp⟩
  cases e with
  | lookup w key account alloc1 alloc2 =>
    simp only [step] at h
    split at h
    · rename_i hw
      obtain ⟨rfl, rfl⟩ := h
      exact keyStep_lookup hinv hw hfit hburst key account alloc1 alloc2 hsince k
    · cases h
  | account w =>
    simp only [step] at h
    rcases hw : s.node w with _ | key
    · simp only [hw, Option.some.injEq, Prod.mk.injEq] at h
      obtain ⟨rfl, rfl⟩ := h
      exact hnothing
    · rcases hf : s.sh.find key with _ | lr
      · simp [hw, Zone.account, hf] at h
      · simp only [hw, Zone.account, hf, map_some, Option.some.injEq, Prod.mk.injEq] at h
        obtain ⟨rfl, rfl⟩ := h
        refine keyStep_modify hinv hw hf (by simp) (fun p hlr hp => ?_) k
        -- Of the open requests this one is now part of the excess.
        have hx := hlr.excessAt hfit hburst
        have hopen := hlr.open_le
        have hcap := (isCap_cap rate).nonneg (le_refl now)
        have htop : (lr.excessAt rate now : ℤ) + 1000 * p ≤ top burst W := by
          simp only [top] at hopen ⊢
          omega
        refine ⟨⟨?_, hsince, le_rfl, fun h0 => absurd h0 hfit.ne_zero, ?_, ?_⟩, fun _ => ?_, ?_⟩
        · simp only [hlr.count, Nat.add_sub_cancel]
        · dsimp only
          omega
        · dsimp only
          omega
        · exact bucketRun_take hlr hfit hburst rfl rfl key false _
        · intro immediate x hmem
          simp only [List.mem_singleton, Mark.accepted.injEq, true_and] at hmem
          obtain ⟨rfl, rfl⟩ := hmem
          simp only [Bool.false_eq_true, if_false, map_some, true_and]
          omega
  | release w =>
    simp only [step] at h
    rcases hw : s.node w with _ | key
    · simp only [hw, Option.some.injEq, Prod.mk.injEq] at h
      obtain ⟨rfl, rfl⟩ := h
      exact hnothing
    · simp only [hw, Option.some.injEq, Prod.mk.injEq] at h
      obtain ⟨rfl, rfl⟩ := h
      rcases hf : s.sh.find key with _ | lr
      · -- A worker's node is always there.
        have hkey := hinv key
        rw [hf] at hkey
        have hupd := pending_update s.node w none key
        have hp0 : pending s.node key = 0 := hkey
        simp only [hw, if_true, reduceCtorEq, if_false, hp0] at hupd
        omega
      · simp only [Zone.release, hf]
        refine keyStep_modify hinv hw hf (by simp) (fun p hlr hp => ?_) k
        have hopen := hlr.open_le
        refine ⟨⟨?_, hlr.since, hlr.last, hlr.fresh, hlr.excess, ?_⟩, fun _ => ?_, by simp⟩
        · simp only [hlr.count, Nat.add_sub_cancel]
        · dsimp only
          omega
        · exact .nil _

end

end LimitReq
