/-
# The clients that may connect

`fcgi_set_allowed_clients` stores the addresses of a list in an array of socket addresses, behind
the last of which there is one without a family.  `fcgi_is_allowed` looks for the address of the
client in the array.
-/
import Mathlib.Data.Fintype.Pi
import ReadingCode.BoundedMemory
import ReadingCode.Bytes

open BoundedMemory

namespace FcgiClients

/-! ## Socket addresses -/

/-- The bytes of an address of IP. -/
abbrev V4 := Fin 4 → UInt8

/-- The bytes of an address of IPv6. -/
abbrev V6 := Fin 16 → UInt8

/-- `AF_UNIX` -/
def afUnix : ℕ := 1

/-- `AF_INET` -/
def afInet : ℕ := 2

/-- `AF_INET6` -/
def afInet6 : ℕ := 10

/-- `sa_t`: the family, which all members of the union share, and the bytes by their offsets. -/
structure Sa where
  family : ℕ
  mem : ℕ → UInt8

namespace Sa

/-- The offset of `sin_addr`. -/
def sinAddr : ℕ := 4

/-- The offset of `sin6_addr`. -/
def sin6Addr : ℕ := 8

/-- `n` bytes at an offset. -/
def read (sa : Sa) (off n : ℕ) : Fin n → UInt8 := fun i => sa.mem (off + i)

/-- The same, written. -/
def write {n : ℕ} (sa : Sa) (off : ℕ) (bytes : Fin n → UInt8) : Sa :=
  { sa with mem := fun i => if h : off ≤ i ∧ i - off < n then bytes ⟨i - off, h.2⟩ else sa.mem i }

theorem read_write {n : ℕ} (sa : Sa) (off : ℕ) (bytes : Fin n → UInt8) :
    (sa.write off bytes).read off n = bytes := by
  funext i
  have hin : off ≤ off + i ∧ off + i - off < n := by omega
  have hi : (⟨off + i - off, hin.2⟩ : Fin n) = i := Fin.ext (Nat.add_sub_cancel_left off i)
  exact (dif_pos hin).trans (congrArg bytes hi)

end Sa

/-- `memcmp` of the first `k` bytes. -/
def memcmpEq {n : ℕ} (k : ℕ) (a b : Fin n → UInt8) : Bool := decide (∀ i, i.val < k → a i = b i)

/-- `IN6_IS_ADDR_V4MAPPED` -/
def isV4Mapped (a : V6) : Bool :=
  decide (∀ i, i.val < 10 → a i = 0) && a 10 == 0xff && a 11 == 0xff

/-- The four bytes of an address of IPv6 from the twelfth on. -/
def embedded (a : V6) : V4 := fun i => a (i.natAdd 12)

/-! ## The list -/

/-- `inet_pton` for the two families. -/
structure InetPton where
  inet : Bytes → Option V4
  inet6 : Bytes → Option V6

/-- The array while it is filled. -/
structure Clients where
  slots : List Sa
  n : ℕ

/-- `allowed_clients[n]` is changed. -/
def Clients.modify (c : Clients) (f : Sa → Sa) : Option Clients :=
  match c.slots[c.n]? with
  | some sa => (store c.slots c.n (f sa)).map fun slots => { c with slots := slots }
  | none => none

/-- A round of `while (cur)`: nothing is stored when `inet_pton` fails. -/
def addClient (pton : InetPton) (c : Clients) (cur : Bytes) : Option Clients :=
  match pton.inet cur with
  | some a => (c.modify fun sa => { sa.write Sa.sinAddr a with family := afInet }).map
      fun c => { c with n := c.n + 1 }
  | none =>
    match pton.inet6 cur with
    | some a => (c.modify fun sa => { sa.write Sa.sin6Addr a with family := afInet6 }).map
        fun c => { c with n := c.n + 1 }
    | none => some c

/-- The largest `int`. -/
def intMax : ℕ := 2 ^ 31 - 1

/-- `fcgi_set_allowed_clients` for the text `ip`, which is not `NULL`; `fresh` is what is in the
memory that `malloc` returns. -/
def setAllowedClients (pton : InetPton) (fresh : ℕ → Sa) (ip : Bytes) : Option (List Sa) := do
  let n := ip.count 44
  if intMax < n + 2 then none
  else
    let c ← (ip.splitOn 44).foldlM (addClient pton) ⟨(List.range (n + 2)).map fresh, 0⟩
    let c ← c.modify fun sa => { sa with family := 0 }
    pure c.slots

/-! ## The client -/

/-- The loop for a client of IP. -/
def isAllowedInet (client : Sa) : List Sa → Option Bool
  | [] => none
  | sa :: rest =>
    if sa.family = 0 then some false
    else if sa.family = afInet ∧
        memcmpEq 4 (client.read Sa.sinAddr 4) (sa.read Sa.sinAddr 4) then some true
    else isAllowedInet client rest

/-- The loop for a client of IPv6. -/
def isAllowedInet6 (client : Sa) : List Sa → Option Bool
  | [] => none
  | sa :: rest =>
    if sa.family = 0 then some false
    else if sa.family = afInet6 ∧
        memcmpEq 12 (client.read Sa.sin6Addr 16) (sa.read Sa.sin6Addr 16) then some true
    else if sa.family = afInet ∧ isV4Mapped (client.read Sa.sin6Addr 16) ∧
        memcmpEq 4 (client.read (Sa.sin6Addr + 12) 4) (sa.read Sa.sinAddr 4) then some true
    else isAllowedInet6 client rest

/-- `fcgi_is_allowed`; an access behind the array has no result. -/
def isAllowed (allowedClients : Option (List Sa)) (client : Sa) : Option Bool :=
  if client.family = afUnix then some true
  else
    match allowedClients with
    | none => some true
    | some slots =>
      if client.family = afInet then isAllowedInet client slots
      else if client.family = afInet6 then isAllowedInet6 client slots
      else some false

/-! ## Addresses -/

/-- An address. -/
inductive Addr
  | inet (a : V4)
  | inet6 (a : V6)
  deriving DecidableEq

/-- The address of a client that is connected by TCP. -/
def Sa.addr (sa : Sa) : Option Addr :=
  if sa.family = afInet then some (.inet (sa.read Sa.sinAddr 4))
  else if sa.family = afInet6 then some (.inet6 (sa.read Sa.sin6Addr 16))
  else none

/-- The address of an entry of a list. -/
def parse (pton : InetPton) (cur : Bytes) : Option Addr :=
  match pton.inet cur with
  | some a => some (.inet a)
  | none => (pton.inet6 cur).map .inet6

/-- The addresses of a list. -/
def entries (pton : InetPton) (ip : Bytes) : List Addr :=
  (ip.splitOn 44).filterMap (parse pton)

/-- A client is the one of an entry: an address of IPv6 that stands for one of IP is that one,
too. -/
def SameAs : Addr → Addr → Prop
  | .inet a, .inet b => a = b
  | .inet6 a, .inet6 b => a = b
  | .inet6 a, .inet b => isV4Mapped a ∧ embedded a = b
  | .inet _, .inet6 _ => False

instance : DecidableRel SameAs
  | .inet a, .inet b => inferInstanceAs (Decidable (a = b))
  | .inet6 a, .inet6 b => inferInstanceAs (Decidable (a = b))
  | .inet6 a, .inet b => inferInstanceAs (Decidable (isV4Mapped a ∧ embedded a = b))
  | .inet _, .inet6 _ => inferInstanceAs (Decidable False)

/-- What the loops look at. -/
def Agrees : Addr → Addr → Prop
  | .inet a, .inet b => a = b
  | .inet6 a, .inet6 b => memcmpEq 12 a b
  | .inet6 a, .inet b => isV4Mapped a ∧ embedded a = b
  | .inet _, .inet6 _ => False

instance : DecidableRel Agrees
  | .inet a, .inet b => inferInstanceAs (Decidable (a = b))
  | .inet6 a, .inet6 b => inferInstanceAs (Decidable (memcmpEq 12 a b = true))
  | .inet6 a, .inet b => inferInstanceAs (Decidable (isV4Mapped a ∧ embedded a = b))
  | .inet _, .inet6 _ => inferInstanceAs (Decidable False)

/-! ## What the array holds -/

/-- The next slot is changed. -/
theorem modify_append (stored rest : List Sa) (sa : Sa) (f : Sa → Sa) :
    Clients.modify ⟨stored ++ sa :: rest, stored.length⟩ f =
      some ⟨stored ++ f sa :: rest, stored.length⟩ := by
  simp only [Clients.modify, List.getElem?_append_right, Nat.le_refl,
    Nat.sub_self, List.getElem?_cons_zero, store_append, Option.map_some]

theorem addr_inet (sa : Sa) (a : V4) :
    ({ sa.write Sa.sinAddr a with family := afInet } : Sa).addr = some (.inet a) := by
  exact congrArg (fun a => some (Addr.inet a)) (sa.read_write Sa.sinAddr a)

theorem addr_inet6 (sa : Sa) (a : V6) :
    ({ sa.write Sa.sin6Addr a with family := afInet6 } : Sa).addr = some (.inet6 a) := by
  exact congrArg (fun a => some (Addr.inet6 a)) (sa.read_write Sa.sin6Addr a)

/-- A round stores the address of an entry, if it has one. -/
theorem addClient_append (pton : InetPton) (stored rest : List Sa) (sa : Sa) (cur : Bytes) :
    match parse pton cur with
    | some a => ∃ sa', sa'.addr = some a ∧
        addClient pton ⟨stored ++ sa :: rest, stored.length⟩ cur =
          some ⟨stored ++ sa' :: rest, stored.length + 1⟩
    | none => addClient pton ⟨stored ++ sa :: rest, stored.length⟩ cur =
        some ⟨stored ++ sa :: rest, stored.length⟩ := by
  unfold parse addClient
  cases pton.inet cur with
  | some a =>
    simp only [modify_append, Option.map_some]
    exact ⟨_, addr_inet sa a, rfl⟩
  | none =>
    cases pton.inet6 cur with
    | some a =>
      simp only [modify_append, Option.map_some]
      exact ⟨_, addr_inet6 sa a, rfl⟩
    | none => rfl

/-- The loop stores the addresses of all entries. -/
theorem foldlM_addClient (pton : InetPton) (curs : List Bytes) (stored rest : List Sa)
    (hroom : curs.length < rest.length) :
    ∃ more rest', more.map Sa.addr = (curs.filterMap (parse pton)).map some ∧ rest' ≠ [] ∧
      curs.foldlM (addClient pton) ⟨stored ++ rest, stored.length⟩ =
        some ⟨stored ++ more ++ rest', (stored ++ more).length⟩ := by
  induction curs generalizing stored rest with
  | nil =>
    refine ⟨[], rest, rfl, List.ne_nil_of_length_pos hroom, ?_⟩
    simp
  | cons cur curs ih =>
    cases rest with
    | nil => exact absurd hroom (Nat.not_lt_zero _)
    | cons sa rest =>
      have hround := addClient_append pton stored rest sa cur
      cases hparse : parse pton cur with
      | none =>
        rw [hparse] at hround
        obtain ⟨more, rest', hmore, hne, hfold⟩ :=
          ih stored (sa :: rest) (Nat.lt_of_succ_lt hroom)
        refine ⟨more, rest', ?_, hne, ?_⟩
        · rw [List.filterMap_cons_none hparse, hmore]
        · rw [List.foldlM_cons, hround]
          exact hfold
      | some a =>
        rw [hparse] at hround
        obtain ⟨sa', haddr, hround⟩ := hround
        obtain ⟨more, rest', hmore, hne, hfold⟩ :=
          ih (stored ++ [sa']) rest (Nat.lt_of_succ_lt_succ hroom)
        refine ⟨sa' :: more, rest', ?_, hne, ?_⟩
        · rw [List.filterMap_cons_some hparse, List.map_cons, List.map_cons, haddr, hmore]
        · simp only [List.append_assoc, List.cons_append, List.nil_append, List.length_append,
            List.length_cons, List.length_nil] at hfold ⊢
          rw [List.foldlM_cons, hround]
          exact hfold

theorem length_splitOn (ip : Bytes) : (ip.splitOn 44).length = ip.count 44 + 1 := by
  induction ip with
  | nil => rfl
  | cons c ip ih =>
    rw [List.splitOn_cons_eq_if_modifyHead]
    by_cases hc : c = 44
    · simp [hc, ih]
    · simp [hc, ih]

/-- The array holds the addresses of the list, and behind them a socket address without a family. -/
theorem setAllowedClients_eq (pton : InetPton) (fresh : ℕ → Sa) (ip : Bytes)
    (hmany : ip.count 44 + 2 ≤ intMax) :
    ∃ stored last rest, setAllowedClients pton fresh ip = some (stored ++ last :: rest) ∧
      stored.map Sa.addr = (entries pton ip).map some ∧ last.family = 0 := by
  obtain ⟨more, rest', hmore, hne, hfold⟩ := foldlM_addClient pton (ip.splitOn 44) []
    ((List.range (ip.count 44 + 2)).map fresh) (by rw [length_splitOn]; simp)
  obtain ⟨sa, rest, rfl⟩ := List.exists_cons_of_ne_nil hne
  refine ⟨more, { sa with family := 0 }, rest, ?_, hmore, rfl⟩
  rw [List.nil_append, List.length_nil] at hfold
  simp only [setAllowedClients, if_neg (not_lt.mpr hmany), Option.bind_eq_bind]
  rw [hfold, Option.bind_some, modify_append]
  rfl

/-! ## What the loops find -/

theorem memcmpEq_self {n : ℕ} (a b : Fin n → UInt8) : memcmpEq n a b = true ↔ a = b := by
  rw [memcmpEq, decide_eq_true_eq]
  exact ⟨fun h => funext fun i => h i i.isLt, fun h i _ => congrFun h i⟩

variable {sa : Sa}

theorem family_of_addr_inet {a : V4} (h : sa.addr = some (.inet a)) :
    sa.family = afInet ∧ sa.read Sa.sinAddr 4 = a := by
  unfold Sa.addr at h
  split_ifs at h with h4 h6
  · exact ⟨h4, by simpa using h⟩
  · simp at h

theorem family_of_addr_inet6 {a : V6} (h : sa.addr = some (.inet6 a)) :
    sa.family = afInet6 ∧ sa.read Sa.sin6Addr 16 = a := by
  unfold Sa.addr at h
  split_ifs at h with h4 h6
  · simp at h
  · exact ⟨h6, by simpa using h⟩

theorem embedded_read (sa : Sa) :
    embedded (sa.read Sa.sin6Addr 16) = sa.read (Sa.sin6Addr + 12) 4 := by
  funext i
  simp [embedded, Sa.read, add_assoc]

/-- A slot that holds an address has a family. -/
theorem family_ne_zero {a : Addr} (h : sa.addr = some a) : sa.family ≠ 0 := by
  intro hzero
  rw [Sa.addr, if_neg, if_neg] at h
  · exact absurd h (by simp)
  · rw [hzero]
    decide
  · rw [hzero]
    decide

/-- A loop that ends at the slot without a family, and before at one that agrees with the client. -/
theorem loop_eq (loop : List Sa → Option Bool) (client : Addr)
    (hend : ∀ sa rest, sa.family = 0 → loop (sa :: rest) = some false)
    (hround : ∀ sa rest e, sa.addr = some e →
      loop (sa :: rest) = if Agrees client e then some true else loop rest)
    (stored rest : List Sa) (last : Sa) (hlast : last.family = 0) (es : List Addr)
    (hes : stored.map Sa.addr = es.map some) :
    loop (stored ++ last :: rest) = some (decide (∃ e ∈ es, Agrees client e)) := by
  induction stored generalizing es with
  | nil =>
    obtain rfl := List.map_eq_nil_iff.mp hes.symm
    rw [List.nil_append, hend last rest hlast]
    simp
  | cons sa stored ih =>
    cases es with
    | nil => exact absurd hes (by simp)
    | cons e es =>
      obtain ⟨hsa, hes⟩ := List.cons.inj hes
      rw [List.cons_append, hround sa _ e hsa, ih es hes]
      by_cases hagrees : Agrees client e
      · simp [hagrees]
      · simp [hagrees]

theorem isAllowedInet_round {client : Sa} {a : V4} (hclient : client.addr = some (.inet a))
    (sa : Sa) (rest : List Sa) (e : Addr) (he : sa.addr = some e) :
    isAllowedInet client (sa :: rest) =
      if Agrees (.inet a) e then some true else isAllowedInet client rest := by
  obtain ⟨-, hread⟩ := family_of_addr_inet hclient
  rw [isAllowedInet, if_neg (family_ne_zero he), hread]
  refine if_congr ?_ rfl rfl
  cases e with
  | inet b =>
    obtain ⟨hfamily, hb⟩ := family_of_addr_inet he
    simp [hfamily, hb, Agrees, memcmpEq_self]
  | inet6 b =>
    obtain ⟨hfamily, -⟩ := family_of_addr_inet6 he
    simp [hfamily, Agrees, afInet, afInet6]

theorem isAllowedInet6_round {client : Sa} {a : V6} (hclient : client.addr = some (.inet6 a))
    (sa : Sa) (rest : List Sa) (e : Addr) (he : sa.addr = some e) :
    isAllowedInet6 client (sa :: rest) =
      if Agrees (.inet6 a) e then some true else isAllowedInet6 client rest := by
  obtain ⟨-, hread⟩ := family_of_addr_inet6 hclient
  rw [isAllowedInet6, if_neg (family_ne_zero he), ← embedded_read, hread]
  cases e with
  | inet b =>
    obtain ⟨hfamily, hb⟩ := family_of_addr_inet he
    rw [if_neg fun h => absurd (hfamily.symm.trans h.1) (by decide)]
    exact if_congr (by simp [hfamily, hb, Agrees, memcmpEq_self]) rfl rfl
  | inet6 b =>
    obtain ⟨hfamily, hb⟩ := family_of_addr_inet6 he
    refine if_congr (by simp [hfamily, hb, Agrees]) rfl ?_
    exact if_neg fun h => absurd (hfamily.symm.trans h.1) (by decide)

/-- A client is allowed that agrees with an entry. -/
theorem isAllowed_eq (pton : InetPton) (fresh : ℕ → Sa) (ip : Bytes) (client : Sa) (a : Addr)
    (hclient : client.addr = some a) (hmany : ip.count 44 + 2 ≤ intMax) :
    ∃ slots, setAllowedClients pton fresh ip = some slots ∧
      isAllowed (some slots) client = some (decide (∃ e ∈ entries pton ip, Agrees a e)) := by
  obtain ⟨stored, last, rest, hset, hstored, hlast⟩ := setAllowedClients_eq pton fresh ip hmany
  refine ⟨_, hset, ?_⟩
  cases a with
  | inet a =>
    obtain ⟨hfamily, -⟩ := family_of_addr_inet hclient
    have hloop := loop_eq (isAllowedInet client) (.inet a) (fun sa rest h => if_pos h)
      (isAllowedInet_round hclient) stored rest last hlast _ hstored
    simp [isAllowed, hfamily, afUnix, afInet, hloop]
  | inet6 a =>
    obtain ⟨hfamily, -⟩ := family_of_addr_inet6 hclient
    have hloop := loop_eq (isAllowedInet6 client) (.inet6 a) (fun sa rest h => if_pos h)
      (isAllowedInet6_round hclient) stored rest last hlast _ hstored
    simp [isAllowed, hfamily, afUnix, afInet, afInet6, hloop]

/-! ## The same address -/

/-- The loops find what is the same. -/
theorem SameAs.agrees {a e : Addr} (h : SameAs a e) : Agrees a e := by
  cases a <;> cases e <;> first | exact h | skip
  rename_i a b
  obtain rfl : a = b := h
  exact decide_eq_true fun _ _ => rfl

/-- A client is treated as the list asks, exactly when the list has not too many entries for an
`int`, and a client of IPv6 that agrees with an entry of IPv6 in the first 12 bytes is the same as
an entry. -/
theorem isAllowed_iff (pton : InetPton) (fresh : ℕ → Sa) (ip : Bytes) (client : Sa) (a : Addr)
    (hclient : client.addr = some a) : (∃ slots, setAllowedClients pton fresh ip = some slots ∧
        isAllowed (some slots) client = some (decide (∃ e ∈ entries pton ip, SameAs a e))) ↔
      ip.count 44 + 2 ≤ intMax ∧
        ∀ b c, a = .inet6 b → .inet6 c ∈ entries pton ip → memcmpEq 12 b c = true →
          ∃ e ∈ entries pton ip, SameAs a e := by
  constructor
  · rintro ⟨slots, hset, hallowed⟩
    have hmany : ip.count 44 + 2 ≤ intMax := by
      by_contra hmany
      rw [setAllowedClients, if_pos (lt_of_not_ge hmany)] at hset
      exact absurd hset (by simp)
    obtain ⟨slots', hset', hallowed'⟩ := isAllowed_eq pton fresh ip client a hclient hmany
    rw [hset] at hset'
    rw [← Option.some.inj hset', hallowed] at hallowed'
    refine ⟨hmany, ?_⟩
    rintro b c rfl hc hcmp
    exact (decide_eq_decide.mp (Option.some.inj hallowed')).mpr ⟨_, hc, hcmp⟩
  · rintro ⟨hmany, hsame⟩
    obtain ⟨slots, hset, hallowed⟩ := isAllowed_eq pton fresh ip client a hclient hmany
    refine ⟨slots, hset, ?_⟩
    rw [hallowed]
    congr 1
    refine decide_eq_decide.mpr ⟨?_, fun ⟨e, he, h⟩ => ⟨e, he, h.agrees⟩⟩
    rintro ⟨e, he, hagrees⟩
    cases a with
    | inet b =>
      cases e with
      | inet c => exact ⟨_, he, hagrees⟩
      | inet6 c => exact absurd hagrees id
    | inet6 b =>
      cases e with
      | inet c => exact ⟨_, he, hagrees⟩
      | inet6 c => exact hsame b c rfl he hagrees

/-- `2001:db8::` with a last byte. -/
def documentation (last : UInt8) : V6 := fun i =>
  [0x20, 0x01, 0x0d, 0xb8, 0, 0, 0, 0, 0, 0, 0, 0, 0, 0, 0, last].getD i 0

/-- `2001:db8::1` as text. -/
def documentationText : Bytes := [50, 48, 48, 49, 58, 100, 98, 56, 58, 58, 49]

/-- What `inet_pton` does with this text. -/
def documentationPton : InetPton :=
  ⟨fun _ => none, fun t => if t = documentationText then some (documentation 1) else none⟩

/-- A client of IPv6. -/
def inet6Client (a : V6) : Sa := Sa.write ⟨afInet6, fun _ => 0⟩ Sa.sin6Addr a

theorem addr_inet6Client (a : V6) : (inet6Client a).addr = some (.inet6 a) :=
  addr_inet6 ⟨afInet6, fun _ => 0⟩ a

/-- The client that is listed is allowed. -/
theorem isAllowed_iff_listed :
    ∃ slots, setAllowedClients documentationPton (fun _ => ⟨0, fun _ => 0⟩) documentationText =
        some slots ∧ isAllowed (some slots) (inet6Client (documentation 1)) =
        some (decide (∃ e ∈ entries documentationPton documentationText,
          SameAs (.inet6 (documentation 1)) e)) :=
  (isAllowed_iff documentationPton (fun _ => ⟨0, fun _ => 0⟩) documentationText _ _
    (addr_inet6Client (documentation 1))).mpr
    ⟨by decide, fun _ _ _ _ _ => ⟨.inet6 (documentation 1), by decide, rfl⟩⟩

/-- And so is the next one. -/
theorem isAllowed_next :
    ∃ slots, setAllowedClients documentationPton (fun _ => ⟨0, fun _ => 0⟩) documentationText =
        some slots ∧ isAllowed (some slots) (inet6Client (documentation 2)) = some true ∧
      ¬ ∃ e ∈ entries documentationPton documentationText, SameAs (.inet6 (documentation 2)) e := by
  obtain ⟨slots, hset, hallowed⟩ := isAllowed_eq documentationPton (fun _ => ⟨0, fun _ => 0⟩)
    documentationText _ _ (addr_inet6Client (documentation 2)) (by decide)
  refine ⟨slots, hset, ?_, by decide⟩
  rw [hallowed]
  decide

end FcgiClients
