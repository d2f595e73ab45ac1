import TwoPhaseCommit.CoordinatorRuns
import TwoPhaseCommit.Lib.Codes

/-! Global transaction ids: different clients and different client ids never share one. -/
namespace TwoPhaseCommit.Coordinator

def hexDigits : List Char := "0123456789abcdef".toList

theorem digitChar_mem_hexDigits {n : ℕ} (h : n < 16) : Nat.digitChar n ∈ hexDigits := by
  revert n
  decide

theorem digitChar_inj {m n : ℕ} (hm : m < 16) (hn : n < 16)
    (h : Nat.digitChar m = Nat.digitChar n) : m = n := by
  have hall : ∀ m < 16, ∀ n < 16, Nat.digitChar m = Nat.digitChar n → m = n := by decide
  exact hall m hm n hn h

theorem length_hexByte (b : UInt8) : (hexByte b).length = 2 := rfl

theorem hexByte_subset (b : UInt8) : hexByte b ⊆ hexDigits := by
  have hb := b.toNat_lt
  refine List.cons_subset.mpr ⟨digitChar_mem_hexDigits (by omega), ?_⟩
  exact List.cons_subset.mpr ⟨digitChar_mem_hexDigits (by omega), List.nil_subset _⟩

theorem hexByte_injective : Function.Injective hexByte := by
  intro a b h
  have ha := a.toNat_lt
  have hb := b.toNat_lt
  obtain ⟨hhigh, hlow⟩ := List.cons.inj h
  have hq := digitChar_inj (by omega) (by omega) hhigh
  have hr := digitChar_inj (by omega) (by omega) (List.cons.inj hlow).1
  exact UInt8.toNat_inj.mp (by omega)

structure IsHexDigest (id : String) : Prop where
  length : id.length = 64
  digits : id.toList ⊆ hexDigits

theorem isHexDigest_hexDigest (hashValue : Vector UInt8 32) :
    IsHexDigest (hexDigest hashValue) where
  length := by
    rw [hexDigest, String.length_ofList]
    simp [List.length_flatMap, length_hexByte]
  digits := by
    rw [hexDigest, String.toList_ofList]
    intro c hc
    obtain ⟨b, _, hb⟩ := List.mem_flatMap.mp hc
    exact hexByte_subset b hb

theorem hexDigest_injective : Function.Injective hexDigest := by
  intro u v h
  have hwords := Codes.selfDelimiting_of_length length_hexByte hexByte_injective
  exact Vector.toList_inj.mp (hwords.flatMap_injective (String.ofList_injective h))

/-- The string that the id of a client's transaction is the hash of. -/
def hashedString (clientTransactionId clientAddress : String) : String :=
  clientTransactionId ++ "~" ++ clientAddress

theorem hashedString_eq_iff {client client' peer peer' : String} (h : '~' ∉ peer.toList)
    (h' : '~' ∉ peer'.toList) :
    hashedString client peer = hashedString client' peer' ↔ client = client' ∧ peer = peer' := by
  have hlist (client peer : String) :
      (hashedString client peer).toList = client.toList ++ '~' :: peer.toList := by
    simp [hashedString]
  rw [← String.toList_inj, hlist, hlist, Codes.join_eq_iff h h', String.toList_inj,
    String.toList_inj]

theorem getTransactionId_eq {sha256 : String → Option (Vector UInt8 32)} {client peer : String}
    {hashValue : Vector UInt8 32} (h : sha256 (hashedString client peer) = some hashValue) :
    getTransactionId sha256 client peer = .ok (hexDigest hashValue) := by
  have h' : sha256 (client ++ "~" ++ peer) = some hashValue := h
  unfold getTransactionId
  rw [h']

section Callers
variable {sha256 : String → Option (Vector UInt8 32)} {callers : Set (String × String)}

/-- What is relied on of a set of callers, each a client id and a peer address: no address has a
delimiter in it, and SHA-256 neither fails nor clashes on the strings that are hashed for them. -/
structure WellHashed (sha256 : String → Option (Vector UInt8 32))
    (callers : Set (String × String)) : Prop where
  peer : ∀ c ∈ callers, '~' ∉ c.2.toList
  succeeds : ∀ c ∈ callers, (sha256 (hashedString c.1 c.2)).isSome
  injOn : Set.InjOn sha256 ((fun c => hashedString c.1 c.2) '' callers)

theorem WellHashed.exists_id (h : WellHashed sha256 callers) {c : String × String}
    (hc : c ∈ callers) : ∃ hashValue, sha256 (hashedString c.1 c.2) = some hashValue ∧
      getTransactionId sha256 c.1 c.2 = .ok (hexDigest hashValue) := by
  obtain ⟨hashValue, hv⟩ := Option.isSome_iff_exists.mp (h.succeeds c hc)
  exact ⟨hashValue, hv, getTransactionId_eq hv⟩

theorem WellHashed.hexDigest_eq_iff (h : WellHashed sha256 callers) {c c' : String × String}
    (hc : c ∈ callers) (hc' : c' ∈ callers) {u v : Vector UInt8 32}
    (hu : sha256 (hashedString c.1 c.2) = some u)
    (hv : sha256 (hashedString c'.1 c'.2) = some v) :
    hexDigest u = hexDigest v ↔ c.1 = c'.1 ∧ c.2 = c'.2 := by
  rw [hexDigest_injective.eq_iff, ← hashedString_eq_iff (h.peer c hc) (h.peer c' hc'),
    ← Option.some_inj, ← hu, ← hv]
  exact h.injOn.eq_iff (Set.mem_image_of_mem _ hc) (Set.mem_image_of_mem _ hc')

/-- Two callers get the same id exactly when their client ids and their addresses are equal. -/
theorem getTransactionId_unique (h : WellHashed sha256 callers) :
    ∀ c ∈ callers, ∀ c' ∈ callers, ∃ id id',
      getTransactionId sha256 c.1 c.2 = .ok id ∧ getTransactionId sha256 c'.1 c'.2 = .ok id' ∧
        IsHexDigest id ∧ IsHexDigest id' ∧ (id = id' ↔ c.1 = c'.1 ∧ c.2 = c'.2) := by
  intro c hc c' hc'
  obtain ⟨u, hu, hid⟩ := h.exists_id hc
  obtain ⟨v, hv, hid'⟩ := h.exists_id hc'
  exact ⟨_, _, hid, hid', isHexDigest_hexDigest u, isHexDigest_hexDigest v,
    h.hexDigest_eq_iff hc hc' hu hv⟩

end Callers

def localCallers : Set (String × String) :=
  {("id", localContext.peer), ("id~ipv4:127.0.0.1:50051", localContext.peer)}

def localSha256 (input : String) : Option (Vector UInt8 32) :=
  if input = "id~ipv4:127.0.0.1:50051" then localServer.sha256 input
  else if input = "id~ipv4:127.0.0.1:50051~ipv4:127.0.0.1:50051" then
    some ⟨#[115, 135, 65, 20, 30, 157, 122, 45, 106, 142, 193, 61, 111, 200, 199, 23, 54, 211, 11,
      115, 134, 209, 234, 164, 155, 200, 206, 212, 32, 232, 158, 204], rfl⟩
  else none

theorem wellHashed_local : WellHashed localSha256 localCallers where
  peer := by simp [localCallers, localContext]
  succeeds := by
    rintro c (rfl | rfl) <;> decide
  injOn := by
    rintro _ ⟨c, rfl | rfl, rfl⟩ _ ⟨c', rfl | rfl, rfl⟩ h
    · rfl
    · exact absurd h (by decide)
    · exact absurd h (by decide)
    · rfl

theorem getTransactionId_unique_local : ∃ id id',
    getTransactionId localSha256 "id" localContext.peer = .ok id ∧
      getTransactionId localSha256 "id~ipv4:127.0.0.1:50051" localContext.peer = .ok id' ∧
        IsHexDigest id ∧ IsHexDigest id' ∧
          (id = id' ↔ "id" = "id~ipv4:127.0.0.1:50051" ∧ localContext.peer = localContext.peer) :=
  getTransactionId_unique wellHashed_local ("id", localContext.peer) (.inl rfl)
    ("id~ipv4:127.0.0.1:50051", localContext.peer) (.inr rfl)

end TwoPhaseCommit.Coordinator
