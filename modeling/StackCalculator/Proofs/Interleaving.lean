import StackCalculator.Proofs.Cursor

/-!
A scanner is asked for results in three ways: it scans, it gives its next item, or it is looked at
without being moved. However the three are mixed, the answers are the results of scanning alone, one
after the other. Only the end of the input, given as an item, closes the scanner for further items.
-/

namespace StackCalculator

namespace Scanner

/-- The ways to ask a scanner for a result. -/
inductive Access where
  | scan
  | next
  | peek
  deriving DecidableEq

/-- What was asked, and the answer. -/
abbrev Exchange :=
  Access × Option Scanned

/-- Whether an answer has moved the scanner: looking at a result does not, and no answer is none. -/
def Exchange.consumes : Exchange → Bool
  | (.peek, _) => false
  | (_, reply) => reply.isSome

/-- How many results have been consumed. -/
def consumed (exchanges : List Exchange) : Nat :=
  exchanges.countP Exchange.consumes

/-- The end of the input has been given as an item. An end that was only scanned or looked at does
not count. -/
def EndGiven (exchanges : List Exchange) : Prop :=
  ∃ token, token.kind = .endOfInput ∧ (.next, some (.ok token)) ∈ exchanges

def reply (s : Scanner) : Access → Option Scanned × Scanner
  | .scan => (some s.scan.1, s.scan.2)
  | .next => s.next
  | .peek => (some s.peek, s)

/-- Asks one thing after the other, and gives the scanner afterwards too. -/
def replies (s : Scanner) : List Access → List Exchange × Scanner
  | [] => ([], s)
  | access :: accesses =>
      let (item, after) := s.reply access
      let (exchanges, last) := after.replies accesses
      ((access, item) :: exchanges, last)

theorem consumed_cons (exchange : Exchange) (exchanges : List Exchange) :
    consumed (exchange :: exchanges) = consumed [exchange] + consumed exchanges := by
  rw [consumed, ← List.singleton_append, List.countP_append]
  rfl

theorem endGiven_cons (exchange : Exchange) (exchanges : List Exchange) :
    EndGiven (exchange :: exchanges) ↔ EndGiven [exchange] ∨ EndGiven exchanges := by
  simp only [EndGiven, List.mem_cons, List.not_mem_nil, or_false, and_or_left, exists_or]

/-- Scanning does not depend on whether the scanner is closed. -/
theorem scan_setFinished (s : Scanner) (finished : Bool) :
    { s with finished := finished }.scan =
      (s.scan.1, { s.scan.2 with finished := finished }) := by
  unfold scan
  dsimp only
  split
  · rfl
  · split <;> rfl

theorem results_setFinished (s : Scanner) (finished : Bool) (n : Nat) :
    { s with finished := finished }.results n = s.results n := by
  induction n generalizing s with
  | zero => rw [results, results, scan_setFinished]
  | succ n ih => rw [results, results, scan_setFinished, ih]

/-- A scanner gives the end of the input in only one form. -/
theorem isEnd_scan_iff (s : Scanner) :
    Scanned.IsEnd s.scan.1 ↔ ∃ token, s.scan.1 = .ok token ∧ token.kind = .endOfInput := by
  constructor
  · rintro ⟨line, hItem⟩
    exact ⟨_, hItem, rfl⟩
  · rintro ⟨token, hItem, hKind⟩
    obtain ⟨hShape, _⟩ := scan_end (s := s) (Prod.ext hItem rfl) hKind
    exact ⟨token.line, hShape ▸ hItem⟩

/-- The results of scanning are not the end up to some place, and the same end from there on. -/
theorem exists_end_results (s : Scanner) :
    ∃ count line, (∀ n, n < count → ¬Scanned.IsEnd (s.results n)) ∧
      ∀ n, count ≤ n → s.results n = .ok ⟨.endOfInput, "", line⟩ := by
  by_cases hEnd : Scanned.IsEnd s.scan.1
  · obtain ⟨line, hItem⟩ := hEnd
    exact ⟨0, line, fun n hn => absurd hn (Nat.not_lt_zero n),
      fun n _ => results_of_scan_end (Prod.ext hItem rfl) rfl n⟩
  · have hLess : s.scan.2.rest.length < s.rest.length := by
      rw [isEnd_scan_iff] at hEnd
      exact s.scan_eq_end_or_rest_lt.resolve_left hEnd
    obtain ⟨count, line, hBefore, hBehind⟩ := exists_end_results s.scan.2
    refine ⟨count + 1, line, fun n hn => ?_, fun n hn => ?_⟩
    · cases n with
      | zero => exact hEnd
      | succ n => exact hBefore n (Nat.lt_of_succ_lt_succ hn)
    · cases n with
      | zero => exact absurd hn (Nat.not_succ_le_zero count)
      | succ n => exact hBehind n (Nat.le_of_succ_le_succ hn)
termination_by s.rest.length

/-- Behind an answer, the results are those that it has not consumed. Only an end that is given as
an item closes the scanner. -/
theorem reply_step {s after : Scanner} {access : Access} {item : Option Scanned}
    (h : s.reply access = (item, after)) :
    (∀ n, after.results n = s.results (consumed [(access, item)] + n)) ∧
      (after.finished = true ↔ s.finished = true ∨ EndGiven [(access, item)]) := by
  have hScan (n : Nat) : s.scan.2.results n = s.results (1 + n) := by rw [Nat.add_comm]; rfl
  cases access with
  | scan =>
      cases h
      exact ⟨hScan, by simp [EndGiven]⟩
  | peek =>
      cases h
      exact ⟨fun n => by rw [show consumed [(.peek, some s.peek)] = 0 from rfl, Nat.zero_add],
        by simp [EndGiven]⟩
  | next =>
      cases hFinished : s.finished with
      | true =>
          rw [reply, next_of_finished hFinished] at h
          cases h
          exact ⟨fun n => by rw [show consumed [(.next, none)] = 0 from rfl, Nat.zero_add],
            by simp [hFinished]⟩
      | false =>
          obtain ⟨last, hNext, hRest, hLine, hEnd⟩ := next_of_not_finished hFinished
          rw [reply, hNext] at h
          cases h
          refine ⟨fun n => ?_, ?_⟩
          · have hSame := results_setFinished s.scan.2 after.finished n
            rw [← hRest, ← hLine] at hSame
            exact hSame.trans (hScan n)
          · rw [hEnd, isEnd_scan_iff]
            simp [EndGiven, and_comm, eq_comm]

theorem replies_run {s last : Scanner} {accesses : List Access} {exchanges : List Exchange}
    (h : s.replies accesses = (exchanges, last)) :
    (∀ n, last.results n = s.results (consumed exchanges + n)) ∧
      (last.finished = true ↔ s.finished = true ∨ EndGiven exchanges) := by
  induction accesses generalizing s exchanges with
  | nil =>
      cases h
      simp [EndGiven, consumed]
  | cons access accesses ih =>
      rcases hReply : s.reply access with ⟨item, after⟩
      rcases hFurther : after.replies accesses with ⟨further, final⟩
      simp only [replies, hReply, hFurther, Prod.mk.injEq] at h
      obtain ⟨rfl, rfl⟩ := h
      obtain ⟨hResults, hFinished⟩ := reply_step hReply
      obtain ⟨hLater, hClosed⟩ := ih hFurther
      constructor
      · intro n
        rw [hLater, hResults, consumed_cons _ further, Nat.add_assoc]
      · rw [hClosed, hFinished, endGiven_cons _ further, or_assoc]

end Scanner

namespace Cursor

open Scanner (Access Exchange consumed EndGiven)

/-- What a cursor answers. Looking at a result scans with a copy. -/
def reply? (c : Cursor) : Access → Option (Option Scanned × Cursor)
  | .scan => c.scan?.map fun (item, after) => (some item, after)
  | .next => c.next?
  | .peek => c.scan?.map fun (item, _) => (some item, c)

/-- Asks one thing after the other, and gives the cursor afterwards too. -/
def replies? (c : Cursor) : List Access → Option (List Exchange × Cursor)
  | [] => some ([], c)
  | access :: accesses => do
      let (item, after) ← c.reply? access
      let (exchanges, last) ← after.replies? accesses
      some ((access, item) :: exchanges, last)

namespace Shows

variable {c : Cursor} {s : Scanner}

theorem reply? (h : c.Shows s) (access : Access) :
    ∃ after, c.reply? access = some ((s.reply access).1, after) ∧
      after.Shows (s.reply access).2 ∧ after.source = c.source := by
  obtain ⟨after, hScan, hAfter, hSource⟩ := h.scan?
  cases access with
  | scan => exact ⟨after, by rw [Cursor.reply?, hScan]; rfl, hAfter, hSource⟩
  | next => exact h.next?
  | peek => exact ⟨c, by rw [Cursor.reply?, hScan]; rfl, h, rfl⟩

theorem replies? (h : c.Shows s) (accesses : List Access) :
    ∃ last, c.replies? accesses = some ((s.replies accesses).1, last) ∧
      last.Shows (s.replies accesses).2 ∧ last.source = c.source := by
  induction accesses generalizing c s with
  | nil => exact ⟨c, rfl, h, rfl⟩
  | cons access accesses ih =>
      obtain ⟨after, hReply, hAfter, hSource⟩ := h.reply? access
      obtain ⟨last, hReplies, hLast, hLastSource⟩ := ih hAfter
      refine ⟨last, ?_, hLast, hLastSource.trans hSource⟩
      simp only [Cursor.replies?, hReply, hReplies, Option.bind_eq_bind, Option.bind_some]
      rfl

end Shows

/-- However a fresh scanner is asked, it never fails to cut its text, and both of its places stay
between characters. Let some results be consumed already. Then scanning, looking, and the next item
all give the first result that is not consumed yet; looking moves nothing. There is no next item
exactly if the end of the input has been given as one. -/
theorem replies_follow_results (source : String) (accesses : List Access) :
    let results := (Scanner.ofText source).results
    (∃ count line, (∀ n, n < count → ¬Scanned.IsEnd (results n)) ∧
      ∀ n, count ≤ n → results n = .ok ⟨.endOfInput, "", line⟩) ∧
    ∃ exchanges cursor scanner,
      (ofText source).replies? accesses = some (exchanges, cursor) ∧
      (Scanner.ofText source).replies accesses = (exchanges, scanner) ∧
      cursor.source = source ∧ cursor.WellPlaced ∧
      (∃ after, cursor.reply? .scan = some (some (results (consumed exchanges)), after)) ∧
      cursor.reply? .peek = some (some (results (consumed exchanges)), cursor) ∧
      (EndGiven exchanges → cursor.reply? .next = some (none, cursor)) ∧
      (¬EndGiven exchanges →
        ∃ after, cursor.reply? .next = some (some (results (consumed exchanges)), after)) := by
  intro results
  refine ⟨(Scanner.ofText source).exists_end_results, ?_⟩
  obtain ⟨cursor, hReplies, hShows, hSource⟩ := (ofText_shows source).replies? accesses
  obtain ⟨hResults, hFinished⟩ := Scanner.replies_run (s := Scanner.ofText source) rfl
  rcases hRun : (Scanner.ofText source).replies accesses with ⟨exchanges, scanner⟩
  rw [hRun] at hReplies hShows hResults hFinished
  have hItem : scanner.scan.1 = results (consumed exchanges) := hResults 0
  obtain ⟨after, hScan, _⟩ := hShows.scan?
  rw [hItem] at hScan
  refine ⟨exchanges, cursor, scanner, hReplies, rfl, hSource, hShows.wellPlaced,
    ⟨after, by rw [reply?, hScan]; rfl⟩, by rw [reply?, hScan]; rfl, fun hGiven => ?_,
    fun hOpen => ?_⟩
  · have hClosed : cursor.finished = true := hShows.finished.trans (hFinished.mpr (.inr hGiven))
    rw [reply?, next?, if_pos hClosed]
  · have hNotClosed : scanner.finished = false := by
      rw [Bool.eq_false_iff]
      exact fun hClosed => (hFinished.mp hClosed).elim Bool.false_ne_true hOpen
    obtain ⟨last, hNext, _⟩ := hShows.next?
    obtain ⟨_, hGives, _⟩ := Scanner.next_of_not_finished hNotClosed
    rw [hGives, hItem] at hNext
    exact ⟨last, hNext⟩

example : ((ofText "é1").replies? [.peek, .scan, .next, .scan, .next, .next]).map Prod.fst =
    some [(.peek, some (.error ⟨'é', 1⟩)), (.scan, some (.error ⟨'é', 1⟩)),
      (.next, some (.ok ⟨.number, "1", 1⟩)), (.scan, some (.ok ⟨.endOfInput, "", 1⟩)),
      (.next, some (.ok ⟨.endOfInput, "", 1⟩)), (.next, none)] := by
  decide +kernel

end Cursor

end StackCalculator
