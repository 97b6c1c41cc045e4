import PipRiot.Crt0.Relocate
import PipRiot.SafeExec.Arguments
import PipRiot.Core.MsgDelivery
import PipRiot.Core.MboxOrder
import PipRiot.Sys.SemaWakeup
import PipRiot.Sys.ZtimerAlarm
import PipRiot.Gnrc.PktbufRuns
import PipRiot.Sixlowpan.Reassembly
import PipRiot.Sixlowpan.IphcRoundTrip
import PipRiot.Tinyfs.Write
import PipRiot.Riotboot.Update
import PipRiot.Coap.Build
import PipRiot.Coap.Cache
import PipRiot.Coap.OptionTable
import PipRiot.Crypto.CcmRoundTrip
import PipRiot.Can.IsotpTransfer
import PipRiot.Sixlowpan.NhcLoop
import PipRiot.Rbpf.VerifyComplete
import PipRiot.Rbpf.Prior
import PipRiot.Tinyfs.Init
import PipRiot.SafeExec.Cleaning
import PipRiot.Core.Priority
import PipRiot.Core.MutexInheritance
import PipRiot.Rbpf.CompressedRbf
import PipRiot.SafeExec.FileCalls
import PipRiot.Core.SendReceive
import PipRiot.Core.ThreadFlags
import PipRiot.Core.Cond
import PipRiot.Sys.ConvertMuldiv64
import PipRiot.Sys.Div
import PipRiot.Ipv6.ExtFragEvict
import PipRiot.Sixlowpan.FragBuilds
import PipRiot.Dns.Cache
