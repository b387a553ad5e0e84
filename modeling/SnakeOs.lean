import SnakeOs.Lib.Text
import SnakeOs.Flash.Spi
import SnakeOs.Flash.Mtd
import SnakeOs.Flash.Frames
import SnakeOs.Flash.Protocol
import SnakeOs.Flash.Erase
import SnakeOs.Firmware.Upgrade
import SnakeOs.Firmware.Gate
import SnakeOs.Dma.Descriptors
import SnakeOs.Dma.Scheduler
import SnakeOs.Lib.Slots
import SnakeOs.Dma.Accounting
import SnakeOs.Dma.Safety
import SnakeOs.Hsdma.Accounting
import SnakeOs.Hsdma.Safety
import SnakeOs.Nic.Receive
import SnakeOs.Nic.Buffers
import SnakeOs.Nic.Wakeup
import SnakeOs.Lib.Ring
import SnakeOs.Nic.Order
import SnakeOs.Nic.Transmit
import SnakeOs.Lib.Trace
import SnakeOs.Nic.TxRing
import SnakeOs.Nic.TxFill
import SnakeOs.Nic.TxOwned
import SnakeOs.Lib.Regex
import SnakeOs.Lib.Shell
import SnakeOs.Samba.Smbshare
import SnakeOs.Samba.Layout
import SnakeOs.Samba.Rewrite
import SnakeOs.Samba.Records
import SnakeOs.Samba.Store
import SnakeOs.Flash.Write
import SnakeOs.Timer.Monotone
import SnakeOs.Nic.TxMulti
import SnakeOs.Nic.TxSweep
import SnakeOs.Lib.Chain
import SnakeOs.UBoot.Accounted
import SnakeOs.Config.Backup
import SnakeOs.Lib.Sed
import SnakeOs.Config.Funcs
import SnakeOs.Config.Readers
import SnakeOs.Config.Mirrors
import SnakeOs.Samba.Accounts
import SnakeOs.Disk.Automount
import SnakeOs.Disk.Mounts
import SnakeOs.Disk.Hotplug
import SnakeOs.Spi.Bitbang
import SnakeOs.Spi.Messages
import SnakeOs.Nic.TxParts
import SnakeOs.Nic.TxReclaim
import SnakeOs.Nic.Isr
import SnakeOs.Dma.Chain
import SnakeOs.Dma.History
import SnakeOs.Timer.Counter
import SnakeOs.Hsdma.Registers
import SnakeOs.Dma.BusyCopy
import SnakeOs.Dma.BusyExact
import SnakeOs.Lib.Reread
import SnakeOs.Samba.Growth
import SnakeOs.Samba.Twice
import SnakeOs.Config.RoundTrip
import SnakeOs.Samba.Anywhere
import SnakeOs.Config.Browser
import SnakeOs.Config.Network
import SnakeOs.Samba.Save
import SnakeOs.Config.Permissions
import SnakeOs.Samba.Isolated
import SnakeOs.Arch.MapDesc
import SnakeOs.Config.Addresses
import SnakeOs.Arch.PciConfig
import SnakeOs.Lib.Countdown
import SnakeOs.UBoot.TimeBase
import SnakeOs.UBoot.Spare
import SnakeOs.Disk.Reboot
import SnakeOs.Disk.Names
import SnakeOs.Disk.Rows
import SnakeOs.Samba.Arguments
import SnakeOs.Samba.Guard
import SnakeOs.Config.Life
import SnakeOs.Firmware.Burn
import SnakeOs.Firmware.Image
import SnakeOs.Spi.Queue
import SnakeOs.UBoot.Arrivals
import SnakeOs.Arch.RegDebug
