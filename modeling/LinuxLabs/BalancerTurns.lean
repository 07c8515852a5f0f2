import LinuxLabs.BalancerBounds
import LinuxLabs.ForkingBalancer
import LinuxLabs.RoundRobin
import LinuxLabs.TcpLoadBalancer
import LinuxLabs.UdpLoadBalancer

/-! # Whose turn it is in the load balancers (labs 09 to 13)
All of them go around their backends. They differ in when the turn passes on: with the reply, with
a connection that is made, or with every client. -/
namespace BalancerTurns

open Execution RoundRobin

/-! ## Lab 09 -/

namespace Udp

open UdpLoadBalancer

/-- `current_backend` is still the last pick while its response is awaited. -/
def turn (s : State) : Backend :=
  if s.phase.waiting then s.currentBackend + 1 else s.currentBackend

end Udp

/-! ## Labs 10 and 11 -/

namespace Tcp

open TcpLoadBalancer

end Tcp

/-! ## Lab 12 -/

namespace Forking

open ForkingBalancer

end Forking

/-! ## Lab 13 -/

namespace Async

open BalancerBounds

end Async

end BalancerTurns
