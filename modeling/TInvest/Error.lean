import Mathlib

/-!
# Statuses and errors

`grpc::Status`, as far as the SDK reads it, and `Error` of `include/tinvest/error.hpp`.
-/

namespace TInvest

/-- `grpc::StatusCode`, by its number. -/
structure StatusCode where
  value : ℕ
deriving DecidableEq

namespace StatusCode

def ok : StatusCode := ⟨0⟩
def cancelled : StatusCode := ⟨1⟩
def unknown : StatusCode := ⟨2⟩
def resourceExhausted : StatusCode := ⟨8⟩
def unavailable : StatusCode := ⟨14⟩

end StatusCode

/-- `grpc::Status`: its `error_code()` and `error_message()`. -/
structure Status where
  errorCode : StatusCode := .ok
  errorMessage : String := ""
deriving DecidableEq

/-- `status.ok()`. -/
def Status.isOk (s : Status) : Bool := s.errorCode == .ok

/-- `grpc::Status::CANCELLED`. -/
def Status.cancelled : Status := { errorCode := .cancelled }

/-- `RateLimitInfo`: `-1` where the header is absent. -/
structure RateLimitInfo where
  limit : ℤ := -1
  remaining : ℤ := -1
  resetSeconds : ℤ := -1
deriving DecidableEq

/-- `Error`. -/
structure Error where
  code : StatusCode := .unknown
  message : String := ""
  apiCode : String := ""
  trackingId : String := ""
  ratelimit : RateLimitInfo := {}
deriving DecidableEq

end TInvest
