import Ttntfs.Logfile.OpenReturns

/-!
# What the checks of a restart page read

The checks of `logfile_open.c` bound the restart area by the head that was read and by the
system page. The bounds hold but for two slips: a restart area at offset 480 starts low
enough for the test of its first part, though its last fields lie behind the head, and the
length of a long client array is cut to 16 bits before it is compared.
-/

namespace Ttntfs.Logfile

open Library.ByteMemory

/-- The fields of the restart area that `check_ra` reads, by offset and width. -/
def areaFields : List (Nat × Nat) :=
  [(raClientArrayOffset, 2), (raLogClients, 2), (raRestartAreaLength, 2), (raClientFreeList, 2),
    (raClientInUseList, 2), (raFileSize, 8), (raSeqNumberBits, 4), (raLogRecordHeaderLength, 2),
    (raLogPageDataOffset, 2)]

/-- The clients whose records a walk reads at most: those along the list, until it leaves the
client array. -/
def followedClients (rp : Mem) (nr : Nat) : Nat → Nat → List Nat
  | rounds, idx =>
    if idx = lfsNoClient || idx ≥ nr then []
    else
      match rounds with
      | 0 => [idx]
      | rounds + 1 => idx :: followedClients rp nr rounds (nextClient rp idx)

/-- The bytes that the client array needs behind the restart area. -/
def clientArrayEnd (rp : Mem) : Nat :=
  lfGet16 rp (raOf rp + raClientArrayOffset) + clientCount rp * crSize

/-- What the checks of a page are for: the fields they read lie in the head, the restart area
and the client records in the page, and the client lists stay inside the client array. -/
structure BoundsSound (head page : Mem) : Prop where
  fields : ∀ field ∈ areaFields, raOf head + field.1 + field.2 ≤ lfsSectorSize
  area : raOf page + lfGet16 page (raOf page + raRestartAreaLength) ≤
    lfGet32 head rpSystemPageSize
  records : ∀ idx < clientCount page, clientRecord page idx + crSize ≤ lfGet32 head rpSystemPageSize
  followed : ∀ rounds first, ∀ idx ∈ followedClients page (clientCount page) rounds first,
    idx < clientCount page

/-- The two slips stay out: the restart area is not the last that the head admits, and the
client array ends before its length is cut, or in the page all the same. -/
def ArrayFits (head : Mem) : Prop :=
  raOf head ≠ 480 ∧
    (clientArrayEnd head < 2 ^ 16 ∨ raOf head + clientArrayEnd head ≤ lfGet32 head rpSystemPageSize)

section Reads

variable {rp rp' : Mem} {nr idx rounds : Nat}

theorem followedClients_of_not_offList (running : ¬ OffList nr idx) :
    followedClients rp nr rounds idx = match rounds with
      | 0 => [idx]
      | rounds + 1 => idx :: followedClients rp nr rounds (nextClient rp idx) := by
  rw [← offList_iff] at running
  cases rounds with
  | zero => rw [followedClients, if_neg running]
  | succ rounds => rw [followedClients, if_neg running]

theorem followedClients_lt : ∀ client ∈ followedClients rp nr rounds idx, client < nr := by
  induction rounds generalizing idx with
  | zero =>
    rw [followedClients]
    split
    · simp
    · rename_i running
      rw [offList_iff] at running
      simpa using lt_of_not_offList running
  | succ rounds ih =>
    rw [followedClients]
    split
    · simp
    · rename_i running
      rw [offList_iff] at running
      exact List.forall_mem_cons.mpr ⟨lt_of_not_offList running, ih⟩

/-- Two pages agree on the record of a client. -/
def SameRecord (rp rp' : Mem) (client : Nat) : Prop :=
  clientRecord rp' client = clientRecord rp client ∧
    ∀ i < crSize, rp' (clientRecord rp client + i) = rp (clientRecord rp client + i)

theorem SameRecord.field {client width off : Nat} (same : SameRecord rp rp' client)
    (inside : off + width ≤ crSize) :
    getLE rp' width (clientRecord rp' client + off) = getLE rp width (clientRecord rp client + off) := by
  rw [same.1]
  refine getLE_congr fun i lower upper => ?_
  have byte := same.2 (i - clientRecord rp client) (by omega)
  rwa [show clientRecord rp client + (i - clientRecord rp client) = i by omega] at byte

theorem SameRecord.next {client : Nat} (same : SameRecord rp rp' client) :
    nextClient rp' client = nextClient rp client :=
  @SameRecord.field rp rp' client 2 crNextClient same (by decide)

theorem SameRecord.isNtfs {client : Nat} (same : SameRecord rp rp' client) :
    isNtfsClient rp' (clientRecord rp' client) = isNtfsClient rp (clientRecord rp client) := by
  have length := @SameRecord.field rp rp' client 4 crClientNameLength same (by decide)
  have first := @SameRecord.field rp rp' client 2 crClientName same (by decide)
  have second := @SameRecord.field rp rp' client 2 (crClientName + 2) same (by decide)
  have third := @SameRecord.field rp rp' client 2 (crClientName + 4) same (by decide)
  have fourth := @SameRecord.field rp rp' client 2 (crClientName + 6) same (by decide)
  simp only [← Nat.add_assoc] at second third fourth
  simp only [isNtfsClient, lfGet16, lfGet32, length, first, second, third, fourth]

/-- The check of a client list reads the records of the followed clients only. -/
theorem clientListOk_congr {first : Bool}
    (same : ∀ client ∈ followedClients rp nr rounds idx, SameRecord rp rp' client) :
    clientListOk rp' nr rounds first idx = clientListOk rp nr rounds first idx := by
  induction rounds generalizing idx first with
  | zero => rw [clientListOk, clientListOk]
  | succ rounds ih =>
    rw [clientListOk, clientListOk]
    by_cases none : idx = lfsNoClient
    · rw [if_pos none, if_pos none]
    by_cases outside : idx ≥ nr
    · rw [if_neg none, if_neg none]
      simp only [if_pos outside]
    have running : ¬ OffList nr idx := by simp [OffList, none, outside]
    rw [followedClients_of_not_offList running, List.forall_mem_cons] at same
    have prev := @SameRecord.field rp rp' idx 2 crPrevClient same.1 (by decide)
    have next := same.1.next
    rw [nextClient, nextClient] at next
    simp only [if_neg none, if_neg outside, lfGet16, prev]
    rw [lfGet16, lfGet16] at next
    have later := @ih _ false same.2
    rw [nextClient, lfGet16] at later
    rw [next, later]

/-- The search for the NTFS client reads the records of the followed clients only. -/
theorem findNtfsClient_congr
    (same : ∀ client ∈ followedClients rp nr rounds idx, SameRecord rp rp' client) :
    findNtfsClient rp' nr rounds idx = findNtfsClient rp nr rounds idx := by
  induction rounds generalizing idx with
  | zero =>
    by_cases off : OffList nr idx
    · rw [← offList_iff] at off
      rw [findNtfsClient, findNtfsClient, if_pos off, if_pos off]
    · rw [followedClients_of_not_offList off, List.forall_mem_cons] at same
      rw [findNtfsClient, findNtfsClient, same.1.isNtfs]
  | succ rounds ih =>
    by_cases off : OffList nr idx
    · rw [← offList_iff] at off
      rw [findNtfsClient, findNtfsClient, if_pos off, if_pos off]
    rw [followedClients_of_not_offList off, List.forall_mem_cons] at same
    have next := same.1.next
    rw [nextClient, nextClient] at next
    rw [findNtfsClient, findNtfsClient, same.1.isNtfs]
    have later := ih same.2
    rw [nextClient] at later
    simp only [next]
    rw [later]

/-- The walk for the oldest number reads the records of the followed clients only. -/
theorem oldestClientLsn_congr {lsn : Nat}
    (same : ∀ client ∈ followedClients rp nr rounds idx, SameRecord rp rp' client) :
    oldestClientLsn rp' nr rounds idx lsn = oldestClientLsn rp nr rounds idx lsn := by
  induction rounds generalizing idx lsn with
  | zero =>
    rw [oldestClientLsn, oldestClientLsn]
  | succ rounds ih =>
    by_cases off : OffList nr idx
    · rw [oldestClientLsn, oldestClientLsn, if_pos (offList_iff.mpr off),
        if_pos (offList_iff.mpr off)]
    rw [followedClients_of_not_offList off, List.forall_mem_cons] at same
    have oldest := @SameRecord.field rp rp' idx 8 crOldestLsn same.1 (by decide)
    have next := same.1.next
    rw [nextClient, nextClient] at next
    rw [← offList_iff] at off
    rw [oldestClientLsn, oldestClientLsn, if_neg off, if_neg off]
    simp only [lfGet64, oldest, next]
    exact ih same.2

end Reads

section Bounds

variable {head page : Mem} {pos : Nat}

/-- The fields of the restart area lie in the head unless the area is the last that the head
admits. -/
theorem areaFields_inside_iff (header : checkRpHeader head pos = .ok ())
    (area : checkRa head = .ok ()) :
    (∀ field ∈ areaFields, raOf head + field.1 + field.2 ≤ lfsSectorSize) ↔ raOf head ≠ 480 := by
  obtain ⟨-, -, -, -, -, ⟨aligned, -⟩, -⟩ := checkRpHeader_ok_iff.mp header
  obtain ⟨start, -⟩ := checkRa_ok_iff.mp area
  simp only [areaFields, List.forall_mem_cons, List.not_mem_nil, false_imp_iff, implies_true,
    and_true, raClientArrayOffset, raLogClients, raRestartAreaLength, raClientFreeList,
    raClientInUseList, raFileSize, raSeqNumberBits, raLogRecordHeaderLength, raLogPageDataOffset,
    lfsSectorSize] at start ⊢
  omega

/-- The client records lie in the page exactly where their length is not cut, or they do so
all the same. -/
theorem records_inside_iff (area : checkRa head = .ok ()) :
    (∀ idx < clientCount head, clientRecord head idx + crSize ≤ lfGet32 head rpSystemPageSize) ↔
      clientArrayEnd head < 2 ^ 16 ∨
        raOf head + clientArrayEnd head ≤ lfGet32 head rpSystemPageSize := by
  obtain ⟨-, -, ⟨calculated, -, -⟩, -⟩ := checkRa_ok_iff.mp area
  have array : lfGet16 head (raOf head + raClientArrayOffset) < 2 ^ 16 := getLE_lt head 2 _
  simp only [raLenCalc] at calculated
  simp only [clientRecord, clientArrayEnd, crSize, clientCount] at calculated ⊢
  constructor
  · intro inside
    by_cases none : lfGet16 head (raOf head + raLogClients) = 0
    · rw [none]
      exact .inl (by omega)
    · have last := inside (lfGet16 head (raOf head + raLogClients) - 1) (by omega)
      exact .inr (by omega)
  · rintro (short | fits) idx below
    · rw [Nat.mod_eq_of_lt short] at calculated
      omega
    · omega

/-- A page as it is restored has the fields of its head: the restoring changes nothing below
the first sector tail. -/
theorem restored_fields (area : checkRa head = .ok ()) (restored : ∀ i < 510, page i = head i) :
    raOf page = raOf head ∧ clientCount page = clientCount head ∧
      lfGet16 page (raOf page + raClientArrayOffset) = lfGet16 head (raOf head + raClientArrayOffset) ∧
      lfGet16 page (raOf page + raRestartAreaLength) =
        lfGet16 head (raOf head + raRestartAreaLength) := by
  obtain ⟨start, -⟩ := checkRa_ok_iff.mp area
  have field {off : Nat} (low : off + 2 ≤ 510) : lfGet16 page off = lfGet16 head off :=
    getLE_congr fun i _ upper => restored i (by omega)
  simp only [raFileSize, lfsSectorSize] at start
  have place : raOf page = raOf head := field (by decide)
  refine ⟨place, ?_, ?_, ?_⟩
  · rw [clientCount, clientCount, place]
    exact field (by simp only [raLogClients]; omega)
  · rw [place]
    exact field (by simp only [raClientArrayOffset]; omega)
  · rw [place]
    exact field (by simp only [raRestartAreaLength]; omega)

/-- The checks of a restart page bound what they and the open read exactly where both slips
stay out. -/
theorem restart_bounds_iff (header : checkRpHeader head pos = .ok ()) (area : checkRa head = .ok ())
    (restored : ∀ i < 510, page i = head i) : BoundsSound head page ↔ ArrayFits head := by
  obtain ⟨place, count, array, length⟩ := restored_fields area restored
  have record (idx : Nat) : clientRecord page idx = clientRecord head idx := by
    rw [clientRecord, clientRecord, array, place]
  obtain ⟨-, -, ⟨-, inside, -⟩, -⟩ := checkRa_ok_iff.mp area
  constructor
  · intro sound
    refine ⟨(areaFields_inside_iff header area).mp sound.fields,
      (records_inside_iff area).mp fun idx below => ?_⟩
    have kept := sound.records idx (count ▸ below)
    rwa [record] at kept
  · rintro ⟨notLast, fits⟩
    refine ⟨(areaFields_inside_iff header area).mpr notLast, ?_, fun idx below => ?_,
      fun _ _ => followedClients_lt⟩
    · rw [length, place]
      exact inside
    · rw [record]
      exact (records_inside_iff area).mpr fits idx (count ▸ below)

/-- With sound bounds the walks along the client lists do not depend on anything behind the
page. -/
theorem client_walks_in_page {page' : Mem} (header : checkRpHeader head pos = .ok ())
    (area : checkRa head = .ok ()) (restored : ∀ i < 510, page i = head i)
    (sound : BoundsSound head page)
    (same : ∀ i < lfGet32 head rpSystemPageSize, page' i = page i) (rounds first lsn : Nat) :
    clientListOk page' (clientCount page) rounds true first =
        clientListOk page (clientCount page) rounds true first ∧
      findNtfsClient page' (clientCount page) rounds first =
        findNtfsClient page (clientCount page) rounds first ∧
      oldestClientLsn page' (clientCount page) rounds first lsn =
        oldestClientLsn page (clientCount page) rounds first lsn := by
  have least := (checkRpHeader_ok_iff.mp header).1.1
  simp only [lfsSectorSize] at least
  have restored' : ∀ i < 510, page' i = head i := fun i low =>
    (same i (by omega)).trans (restored i low)
  obtain ⟨place, -, array, -⟩ := restored_fields area restored
  obtain ⟨place', -, array', -⟩ := restored_fields area restored'
  have records : ∀ client ∈ followedClients page (clientCount page) rounds first,
      SameRecord page page' client := by
    intro client member
    have inside := sound.records client (sound.followed rounds first client member)
    refine ⟨?_, fun i low => same _ (by omega)⟩
    rw [clientRecord, clientRecord, array, array', place, place']
  exact ⟨clientListOk_congr records, findNtfsClient_congr records, oldestClientLsn_congr records⟩

/-- A restart page of 4 KiB whose log has no size and whose client lists are empty. -/
def emptyListsPage (clients raLen : Nat) : Mem :=
  storeFields zeros 0
    [⟨4, rpMagic, lfsMagicRstr⟩, ⟨2, rpUsaOfs, 0x1e⟩, ⟨2, rpUsaCount, 9⟩,
      ⟨4, rpSystemPageSize, 4096⟩, ⟨4, rpLogPageSize, 4096⟩, ⟨2, rpRestartAreaOffset, 0x30⟩,
      ⟨2, rpMajorVer, 1⟩, ⟨2, rpMinorVer, 1⟩, ⟨2, 0x30 + raLogClients, clients⟩,
      ⟨2, 0x30 + raClientFreeList, lfsNoClient⟩, ⟨2, 0x30 + raClientInUseList, lfsNoClient⟩,
      ⟨4, 0x30 + raSeqNumberBits, 67⟩, ⟨2, 0x30 + raRestartAreaLength, raLen⟩,
      ⟨2, 0x30 + raClientArrayOffset, 0x40⟩]

/-- A page with one client record that the checks bound. -/
theorem restart_bounds_one_client :
    BoundsSound (emptyListsPage 1 0xe0) (emptyListsPage 1 0xe0) :=
  (@restart_bounds_iff _ _ 0 (by decide +kernel) (by decide +kernel) fun _ _ => rfl).mpr
    ⟨by decide +kernel, .inl (by decide +kernel)⟩

/-- The walks over one client, where every byte behind the page is a one. -/
theorem client_walks_in_page_one_client :
    let page := emptyListsPage 1 0xe0
    let page' : Mem := fun i => if i < 4096 then page i else 1
    clientListOk page' (clientCount page) 5 true 0 = clientListOk page (clientCount page) 5 true 0 ∧
      findNtfsClient page' (clientCount page) 5 0 = findNtfsClient page (clientCount page) 5 0 ∧
      oldestClientLsn page' (clientCount page) 5 0 7 = oldestClientLsn page (clientCount page) 5 0 7 :=
  @client_walks_in_page (emptyListsPage 1 0xe0) (emptyListsPage 1 0xe0) 0 _ (by decide +kernel) (by decide +kernel)
    (fun _ _ => rfl)
    { fields := by decide +kernel, area := by decide +kernel, records := by decide +kernel
      followed := fun _ _ _ => followedClients_lt _ }
    (fun _ inside => if_pos inside) 5 0 7

/-- A page of 4 KiB with 2048 client records, whose length is a multiple of 64 KiB, passes all
checks: they do not bound the client records. -/
theorem long_client_array_accepted : ¬ ∀ (head page : Mem) (pos : Nat),
    checkRpHeader head pos = .ok () → checkRa head = .ok () → (∀ i < 510, page i = head i) →
      checkClientArray page = true → BoundsSound head page := by
  intro sound
  have bounds := sound (emptyListsPage 2048 0x40) (emptyListsPage 2048 0x40) 0 (by decide +kernel)
    (by decide +kernel) (fun _ _ => rfl) (by decide +kernel)
  exact absurd (bounds.records 2047 (by decide +kernel)) (by decide +kernel)

end Bounds

end Ttntfs.Logfile
