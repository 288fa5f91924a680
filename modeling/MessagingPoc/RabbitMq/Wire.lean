import MessagingPoc.Artemis.Publish
import MessagingPoc.Lib.Double
import MessagingPoc.Lib.Narrow
import MessagingPoc.RabbitMq.Adapter

/-!
# Numbers on the wire

What the .NET adapters make of the numbers their callers give them: `ScheduleAsync` and
`PublishProps` of `RabbitMqScheduler.cs`, and the priority and TTL of `ArtemisScheduler.cs`. A delay
becomes a double, a `long` and then an `int`, a priority a `byte`, and the TTL of Artemis a `uint`;
nothing is checked and no call is refused.

`narrowing_iff` says which numbers arrive.
-/

namespace MessagingPoc.RabbitMq.Wire

/-! ## `ScheduleAsync` -/

/-- `(long)Math.Max(0, due.TotalMilliseconds)`: the ticks of 100 ns become a double, and their
quotient by the ticks of a millisecond another one. -/
def delayMs (deliverAt now : ℤ) : ℤ :=
  ⌊Double.roundRat ((Double.round (deliverAt - now).toNat : ℕ) / (10000 : ℕ))⌋

/-- The properties of a scheduled message. -/
structure ScheduleProps where
  persistent : Bool := true
  xDelay : Int32
  scheduleId : String

def scheduleProps (id : String) (deliverAt now : ℤ) : ScheduleProps where
  xDelay := Narrow.int (delayMs deliverAt now)
  scheduleId := id

/-! ## `PublishProps` -/

/-- `(byte)p`, as the number it is. -/
def encodePriority (p : Int32) : Int32 := Int32.ofNat (Narrow.byte p).toNat

def publishProps (options : Option PublishOptions) : Properties :=
  let headers := (options.bind (·.headers)).getD []
  let headers := (options.bind (·.groupId)).elim headers (setHeader headers "x-group-id")
  let headers := (options.bind (·.dedupId)).elim headers (setHeader headers "x-dedup-id")
  { headers := headers
    priority := (options.bind (·.priority)).map encodePriority
    replyTo := options.bind (·.replyTo)
    correlationId := options.bind (·.correlationId)
    expiration := (options.bind (·.ttlMs)).map toString }

/-! ## What arrives -/

/-- `max(0, deliverAt - now)` in whole milliseconds. -/
def wholeMs (deliverAt now : ℤ) : ℕ := (deliverAt - now).toNat / 10000

theorem delayMs_eq {deliverAt now : ℤ} (h : wholeMs deliverAt now < 2 ^ 31) :
    delayMs deliverAt now = wholeMs deliverAt now := by
  unfold delayMs wholeMs at *
  generalize (deliverAt - now).toNat = ticks at *
  have hticks : ticks < 2 ^ 31 * 10000 := (Nat.div_lt_iff_lt_mul (by decide)).mp h
  rw [Double.round_of_lt (by omega)]
  rcases Nat.eq_zero_or_pos ticks with rfl | hpos
  · simp [Double.roundRat]
  · exact Double.floor_roundRat (e := 31) hpos hticks (by decide) (by decide)

/-- **The delay arrives exactly below `2 ^ 31` milliseconds.** -/
theorem xDelay_iff (id : String) (deliverAt now : ℤ) :
    (scheduleProps id deliverAt now).xDelay.toInt = wholeMs deliverAt now ↔
      deliverAt - now < 2 ^ 31 * 10000 := by
  have hbound : wholeMs deliverAt now < 2 ^ 31 ↔ deliverAt - now < 2 ^ 31 * 10000 := by
    rw [wholeMs, Nat.div_lt_iff_lt_mul (by decide)]
    omega
  rw [← hbound]
  constructor
  · intro h
    have hlt := (scheduleProps id deliverAt now).xDelay.toInt_lt
    omega
  · intro h
    rw [scheduleProps, delayMs_eq h]
    exact Narrow.int_eq_iff.mpr h

theorem encodePriority_le_iff (p q : Int32) :
    encodePriority p ≤ encodePriority q ↔
      q.toInt / 256 - p.toInt / 256 = (q.toInt - p.toInt) / 256 := by
  have hbyte : ∀ p, (encodePriority p).toInt = (Narrow.byte p).toNat := by
    intro p
    have hlt := (Narrow.byte p).toNat_lt
    exact Narrow.int_eq_iff.mpr (by omega)
  rw [← Narrow.byte_le_iff, Int32.le_iff_toInt_le, hbyte, hbyte, Int.ofNat_le]
  exact UInt8.le_iff_toNat_le.symm

/-- As many multiples of 256 lie above `p` and up to `q` as `q - p` has room for: none, when both
fit a byte. -/
def Aligned (p q : Int32) : Prop :=
  q.toInt / 256 - p.toInt / 256 = (q.toInt - p.toInt) / 256

instance (p q : Int32) : Decidable (Aligned p q) := by unfold Aligned; infer_instance

/-- The priority of a message published through RabbitMQ. -/
def rabbitPriority (o : PublishOptions) (p : Int32) : Option Int32 :=
  (publishProps (some { o with priority := some p })).priority

/-- The priority of a message published through Artemis. -/
def artemisPriority (topic payload : String) (routingKey : Option String) (o : PublishOptions)
    (p : Int32) : Option ℤ :=
  (Artemis.Publish.publishAsync topic payload routingKey
    (some { o with priority := some p })).priority

/-- The TTL of a message published through Artemis. -/
def artemisTtl (topic payload : String) (routingKey : Option String) (o : PublishOptions)
    (ttl : Int32) : Option ℤ :=
  (Artemis.Publish.publishAsync topic payload routingKey (some { o with ttlMs := some ttl })).ttl

/-- **What the casts keep.** A delay arrives exactly below `2 ^ 31` milliseconds; two priorities
keep their order exactly if they are aligned, on either broker; a TTL arrives exactly if it is not
negative; and of two delays in reach the later instant has the longer one. -/
theorem narrowing_iff (id : String) (deliverAt now : ℤ) (topic payload : String)
    (key : Option String) (o : PublishOptions) (p q ttl : Int32) :
    ((scheduleProps id deliverAt now).xDelay.toInt = wholeMs deliverAt now ↔
      deliverAt - now < 2 ^ 31 * 10000) ∧
    ((p ≤ q → Option.Rel (· ≤ ·) (rabbitPriority o p) (rabbitPriority o q)) ↔
      (p ≤ q → Aligned p q)) ∧
    ((p ≤ q → Option.Rel (· ≤ ·) (artemisPriority topic payload key o p)
      (artemisPriority topic payload key o q)) ↔ (p ≤ q → Aligned p q)) ∧
    (artemisTtl topic payload key o ttl = some ttl.toInt ↔ 0 ≤ ttl.toInt) ∧
    ∀ id' deliverAt', deliverAt ≤ deliverAt' → deliverAt' - now < 2 ^ 31 * 10000 →
      (scheduleProps id deliverAt now).xDelay.toInt ≤
        (scheduleProps id' deliverAt' now).xDelay.toInt := by
  refine ⟨xDelay_iff id deliverAt now, imp_congr_right fun _ => ?_, imp_congr_right fun _ => ?_,
    ?_, ?_⟩
  · rw [Aligned, ← encodePriority_le_iff]
    constructor
    · rintro ⟨h⟩
      exact h
    · exact fun h => .some h
  · rw [Aligned, ← Narrow.byte_le_iff, UInt8.le_iff_toNat_le, ← Int.ofNat_le]
    constructor
    · rintro ⟨h⟩
      exact h
    · exact fun h => .some h
  · rw [← Narrow.uint_eq_iff]
    exact Option.some_inj
  · intro id' deliverAt' hle hreach
    rw [(xDelay_iff id deliverAt now).mpr (by omega), (xDelay_iff id' deliverAt' now).mpr hreach,
      Int.ofNat_le]
    exact Nat.div_le_div_right (by omega)

/-- **The casts wrap.** A delay of `2 ^ 31` milliseconds, the priorities 255 and 256, and a TTL of
minus one do not arrive. -/
theorem narrowing_wraps :
    (scheduleProps "id" (2 ^ 31 * 10000) 0).xDelay.toInt ≠ wholeMs (2 ^ 31 * 10000) 0 ∧
      ¬Option.Rel (· ≤ ·) (rabbitPriority {} 255) (rabbitPriority {} 256) ∧
      ¬Option.Rel (· ≤ ·) (artemisPriority "t" "m" none {} 255)
        (artemisPriority "t" "m" none {} 256) ∧
      artemisTtl "t" "m" none {} (-1) ≠ some (-1) := by
  refine ⟨mt (xDelay_iff "id" (2 ^ 31 * 10000) 0).mp (by decide), ?_, ?_, by decide⟩
  · rintro ⟨h⟩
    exact absurd h (by decide)
  · rintro ⟨h⟩
    exact absurd h (by decide)

end MessagingPoc.RabbitMq.Wire
