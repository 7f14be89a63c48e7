import Mathlib.Data.List.Basic

/-!
# `Jobs.Retry` — error codes, and what they decide

`classify_error` and `parse_handler_error` compare a trimmed, upper-cased code with a fixed list of ASCII names.
`toUppercase` therefore has to be right about the characters whose upper case is ASCII: the letters `a`–`z`, and
the few others that Unicode maps into ASCII. Every other character keeps a character outside ASCII in its upper
case, which no name on the list contains, and is left as it is here.

The two functions keep a list of names each. `parse_routes_alike_iff` compares them: a code that is parsed from a
message is routed as the code itself, but for the two codes that only `classify_error` knows and does not retry.
-/

namespace Azums.Jobs

/-- `char::is_whitespace`: the Unicode property `White_Space`. -/
def isWhitespace (c : Char) : Bool :=
  let n := c.toNat
  (0x9 ≤ n && n ≤ 0xD) || n == 0x20 || n == 0x85 || n == 0xA0 || n == 0x1680 || (0x2000 ≤ n && n ≤ 0x200A)
    || n == 0x2028 || n == 0x2029 || n == 0x202F || n == 0x205F || n == 0x3000

/-- `str::trim`. -/
def trim (s : List Char) : List Char := ((s.dropWhile isWhitespace).reverse.dropWhile isWhitespace).reverse

/-- `char::to_uppercase`, for the characters whose upper case is ASCII. -/
def upperChar (c : Char) : List Char :=
  match c.toNat with
  | 0xDF => ['S', 'S']
  | 0x131 => ['I']
  | 0x17F => ['S']
  | 0xFB00 => ['F', 'F']
  | 0xFB01 => ['F', 'I']
  | 0xFB02 => ['F', 'L']
  | 0xFB03 => ['F', 'F', 'I']
  | 0xFB04 => ['F', 'F', 'L']
  | 0xFB05 | 0xFB06 => ['S', 'T']
  | _ => [c.toUpper]

/-- `str::to_uppercase`. -/
def toUppercase (s : List Char) : List Char := s.flatMap upperChar

/-- `ErrorClass`. -/
inductive ErrorClass where
  | retryable
  | permanent
  | timeout
  | panic
  | cancelled
  | systemFailure
deriving DecidableEq

/-- `classify_error`. -/
def classifyError (code : String) : ErrorClass :=
  match String.ofList (toUppercase (trim code.toList)) with
  | "TIMEOUT" => .timeout
  | "PANIC" => .panic
  | "CANCELLED" | "CANCELED" => .cancelled
  | "BAD_PAYLOAD" | "UNKNOWN_JOB_TYPE" | "PERMANENT" | "PERMANENT_ERROR" => .permanent
  | "DEPENDENCY_DOWN" | "DB_DEADLOCK" | "SERIALIZATION" | "RATE_LIMIT" | "DB_DISCONNECT" | "SYSTEM_FAILURE"
  | "LEASE_EXPIRED" => .systemFailure
  | _ => .retryable

namespace ErrorClass

/-- `is_retryable`. -/
def isRetryable : ErrorClass → Bool
  | retryable | timeout | systemFailure => true
  | permanent | panic | cancelled => false

/-- `dlq_reason_code`. -/
def dlqReasonCode : ErrorClass → String
  | permanent => "PERMANENT_ERROR"
  | panic => "PANIC"
  | cancelled => "CANCELLED"
  | timeout | retryable | systemFailure => "MAX_ATTEMPTS_EXCEEDED"

end ErrorClass

/-- The retry rule of `on_failure` and of `handle_failure`. -/
def canRetry (errorCode : String) (attemptNo maxAttempts : Int) : Bool :=
  (classifyError errorCode).isRetryable && decide (attemptNo < maxAttempts)

/-- `str::split_once(':')`. -/
def splitOnce : List Char → Option (List Char × List Char)
  | [] => none
  | ':' :: rest => some ([], rest)
  | c :: rest => (splitOnce rest).map (fun (code, rest) => (c :: code, rest))

/-- The codes `parse_handler_error` knows, each under its canonical name. -/
def canonicalCode : String → Option String
  | "TIMEOUT" => some "TIMEOUT"
  | "BAD_PAYLOAD" => some "BAD_PAYLOAD"
  | "PERMANENT" | "PERMANENT_ERROR" => some "PERMANENT_ERROR"
  | "DEPENDENCY_DOWN" => some "DEPENDENCY_DOWN"
  | "DB_DEADLOCK" => some "DB_DEADLOCK"
  | "SERIALIZATION" => some "SERIALIZATION"
  | "RATE_LIMIT" => some "RATE_LIMIT"
  | "DB_DISCONNECT" => some "DB_DISCONNECT"
  | "SYSTEM_FAILURE" => some "SYSTEM_FAILURE"
  | "CANCELLED" | "CANCELED" => some "CANCELLED"
  | _ => none

/-- `parse_handler_error`: the code and the message of a handler's error text. -/
def parseHandlerError (message : String) : String × String :=
  match splitOnce message.toList with
  | none => ("HANDLER_ERROR", message)
  | some (code, rest) =>
      match canonicalCode (String.ofList (toUppercase (trim code))) with
      | some canonical => (canonical, String.ofList (trim rest))
      | none => ("HANDLER_ERROR", message)

example : parseHandlerError " rate_limit : try later " = ("RATE_LIMIT", "try later") := by decide

/-! ## A code in a message

`parse_handler_error` names the code of a message; `classify_error` decides what becomes of the job. -/

/-- A code, trimmed and in upper case: what both functions compare with their names. -/
def normalCode (code : String) : String := String.ofList (toUppercase (trim code.toList))

/-- Two codes are routed alike: retried alike, and with the same reason in the DLQ. -/
def RoutedAlike (code code' : String) : Prop :=
  (classifyError code).isRetryable = (classifyError code').isRetryable ∧
    (classifyError code).dlqReasonCode = (classifyError code').dlqReasonCode

/-- The first colon ends the code. -/
theorem splitOnce_append {code rest : List Char} (h : ':' ∉ code) :
    splitOnce (code ++ ':' :: rest) = some (code, rest) := by
  induction code with
  | nil => rfl
  | cons c code ih =>
      rw [List.mem_cons, not_or] at h
      rw [List.cons_append, splitOnce, ih h.2]
      · rfl
      · exact fun hc => h.1 hc.symm

/-- The code that is parsed from a message with a colon: its canonical name, or `HANDLER_ERROR`. -/
theorem parseHandlerError_code {c : String} (r : String) (h : ':' ∉ c.toList) :
    (parseHandlerError (c ++ ":" ++ r)).1 = (canonicalCode (normalCode c)).getD "HANDLER_ERROR" := by
  have hlist : (c ++ ":" ++ r).toList = c.toList ++ ':' :: r.toList := by
    rw [String.toList_append, String.toList_append, List.append_assoc]
    rfl
  unfold parseHandlerError
  rw [hlist, splitOnce_append h]
  simp only [normalCode]
  cases hcode : canonicalCode (String.ofList (toUppercase (trim c.toList))) with
  | none => rfl
  | some canonical => rfl

/-- A known code is routed as its canonical name is. -/
theorem routedAlike_of_known {c canonical : String} (h : canonicalCode (normalCode c) = some canonical) :
    RoutedAlike canonical c := by
  unfold canonicalCode at h
  unfold RoutedAlike classifyError
  split at h <;> cases h
  all_goals
    rename_i hcode
    rw [normalCode] at hcode
    rw [hcode]
    decide

/-- Of the codes that are not known, `classify_error` has three of its own, and retries one of them. -/
theorem routedAlike_unknown_iff {c : String} (h : canonicalCode (normalCode c) = none) :
    RoutedAlike "HANDLER_ERROR" c ↔ normalCode c ≠ "PANIC" ∧ normalCode c ≠ "UNKNOWN_JOB_TYPE" := by
  have hdefault : classifyError "HANDLER_ERROR" = .retryable := by decide
  rw [RoutedAlike, hdefault, classifyError]
  rw [normalCode] at h ⊢
  generalize String.ofList (toUppercase (trim c.toList)) = code at h ⊢
  split
  all_goals simp_all [canonicalCode, ErrorClass.isRetryable, ErrorClass.dlqReasonCode]

/-- **Parsing a code keeps its route**, unless the code is `PANIC` or `UNKNOWN_JOB_TYPE`: these `parse_handler_error`
    does not know, and what it makes of them is retried. -/
theorem parse_routes_alike_iff {c : String} (h : ':' ∉ c.toList) (r : String) :
    RoutedAlike (parseHandlerError (c ++ ":" ++ r)).1 c ↔
      normalCode c ≠ "PANIC" ∧ normalCode c ≠ "UNKNOWN_JOB_TYPE" := by
  rw [parseHandlerError_code r h]
  cases hcode : canonicalCode (normalCode c) with
  | none => exact routedAlike_unknown_iff hcode
  | some canonical =>
      refine iff_of_true (routedAlike_of_known hcode) ⟨fun hpanic => ?_, fun hunknown => ?_⟩
      · rw [hpanic] at hcode
        cases hcode
      · rw [hunknown] at hcode
        cases hcode

/-- An alias in lower case keeps its route. -/
theorem parse_routes_alike_iff_alias :
    RoutedAlike (parseHandlerError (" canceled " ++ ":" ++ " by hand")).1 " canceled " :=
  (parse_routes_alike_iff (by decide) " by hand").mpr ⟨by decide, by decide⟩

/-- A handler that reports an unknown job type is retried, although that class is not. -/
theorem parse_retries_unknown_job_type :
    (classifyError (parseHandlerError ("UNKNOWN_JOB_TYPE" ++ ":" ++ " resize")).1).isRetryable = true ∧
      (classifyError "UNKNOWN_JOB_TYPE").isRetryable = false ∧
      ¬RoutedAlike (parseHandlerError ("UNKNOWN_JOB_TYPE" ++ ":" ++ " resize")).1 "UNKNOWN_JOB_TYPE" := by
  refine ⟨by decide, by decide, fun halike => ?_⟩
  exact absurd halike.1 (by decide)

end Azums.Jobs
